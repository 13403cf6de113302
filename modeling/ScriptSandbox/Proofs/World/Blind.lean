import ScriptSandbox.Operation.Member

/-
  Changes that do not look at the embedding.

  Allocating, converting and wrapping read the heap and the realms only. Such a change is blind:
  with another embedding in place, and other host objects noted as lost, it gives the same result
  and the same world, apart from these two, which it passes on as they are. A text for messages asks
  the embedding only what host objects display and which names they declare
  (`debugText_exchange`). A sweep asks what host objects hold: with another embedding it may find
  other wrappers dead.
-/

namespace ScriptSandbox.World

variable {E α : Type}

/-- The world with another embedding, and with another note of lost host objects. -/
def exchange (w : World E) (e : E) (lost : List NativeKey) : World E :=
  { w with embedding := e, lostNatives := lost }

/-- The embedding and the note of lost host objects have no part in the change. -/
def Blind (f : World E → α × World E) : Prop :=
  ∀ w e lost, f (w.exchange e lost) = ((f w).1, (f w).2.exchange e lost)

theorem blind_newText (s : String) : Blind (E := E) (newText s) := by
  intro w e lost
  unfold newText
  split <;> rfl

theorem blind_newString (s : String) : Blind (E := E) (newString s) := by
  intro w e lost
  simp only [newString, blind_newText s w e lost]

theorem chainWithin_exchange (steps : Nat) (id : ObjectId) (w : World E) (e : E)
    (lost : List NativeKey) :
    (w.exchange e lost).chainWithin steps id = w.chainWithin steps id := by
  induction steps generalizing id with
  | zero => rfl
  | succ steps ih =>
    have h : (w.exchange e lost).parent? id = w.parent? id := rfl
    simp only [chainWithin, h, ih]

theorem blind_setPrototype (id : ObjectId) (prototype : Option Value) :
    Blind (E := E) (setPrototype id prototype) := by
  intro w e lost
  have h (parent : ObjectId) : (w.exchange e lost).chain parent = w.chain parent :=
    chainWithin_exchange w.objects.size parent w e lost
  unfold setPrototype
  split
  · simp only [h]
    split <;> rfl
  · rfl

theorem blind_bridge (realm : RealmId) (n : Native) : Blind (E := E) (bridge realm n) := by
  intro w e lost
  have h : ((w.exchange e lost).realm realm).bridges.find? (w.exchange e lost).bridgeLive n.key =
      (w.realm realm).bridges.find? w.bridgeLive n.key := rfl
  simp only [bridge, h]
  split <;> rfl

theorem blind_newestLink (realm : RealmId) (n : Native) : Blind (E := E) (newestLink realm n) := by
  intro w e lost
  have h : ((w.exchange e lost).realm realm).links.find? (w.exchange e lost).linkLive n.key =
      (w.realm realm).links.find? w.linkLive n.key := rfl
  simp only [newestLink, h]
  split <;> rfl

/-! ## Crossing the boundary -/

mutual

theorem blind_link (realm : RealmId) : ∀ h : HostValue, Blind (E := E) (link realm h)
  | .undefined | .null | .boolean _ | .number _ => fun _ _ _ => rfl
  | .string s => blind_newString s
  | .array items => fun w e lost => by
    simp only [link, blind_linkAll realm items w e lost, newArray]
    rfl
  | .object n => fun w e lost => by
    have h : (w.exchange e lost).wellKnown? realm n = w.wellKnown? realm n := rfl
    simp only [link, h]
    split
    · rfl
    · split
      · rfl
      · exact blind_newestLink realm n w e lost

theorem blind_linkAll (realm : RealmId) : ∀ hs : List HostValue, Blind (E := E) (linkAll realm hs)
  | [] => fun _ _ _ => rfl
  | h :: rest => fun w e lost => by
    simp only [linkAll, blind_link realm h w e lost,
      blind_linkAll realm rest (link realm h w).2 e lost]

end

theorem blind_toHostAll {convert : Value → World E → Option HostValue × World E}
    (hc : ∀ v, Blind (convert v)) (vs : List Value) : Blind (toHostAll convert vs) := by
  induction vs with
  | nil => exact fun _ _ _ => rfl
  | cons v rest ih =>
    intro w e lost
    simp only [toHostAll, hc v w e lost]
    cases hv : convert v w with
    | mk h? w' =>
      cases h? with
      | none => rfl
      | some h =>
        simp only [ih w' e lost]
        cases hr : toHostAll convert rest w' with
        | mk hs? w'' => cases hs? <;> rfl

theorem blind_toHostWithin (depth : Nat) (v : Value) :
    Blind (E := E) (toHostWithin depth v) := by
  induction depth generalizing v with
  | zero => rcases v with ⟨_ | _ | _ | _ | _⟩ | _ | _ | _ | _ <;> exact fun _ _ _ => rfl
  | succ depth ih =>
    rcases v with ⟨_ | _ | _ | _ | _⟩ | _ | id | _ | _ <;> try exact fun _ _ _ => rfl
    intro w e lost
    have h : (w.exchange e lost).array id = w.array id := rfl
    simp only [toHostWithin, h, blind_toHostAll ih (w.array id).elements.toList w e lost]
    cases hr : toHostAll (toHostWithin depth) (w.array id).elements.toList w with
    | mk hs? w' => cases hs? <;> rfl

theorem blind_toHost (v : Value) : Blind (E := E) (toHost v) :=
  fun w e lost => blind_toHostWithin w.arrays.size v w e lost

/-! ## What asks the embedding -/

variable [Embedding E] {w : World E} {e : E} {lost : List NativeKey}

/-- The host objects of the embeddings look alike in messages. -/
structure ShowsAlike (e e' : E) : Prop where
  display : ∀ id, Embedding.display e id = Embedding.display e' id
  policy : ∀ id, Embedding.policy e id = Embedding.policy e' id

theorem policy?_exchange (h : ShowsAlike w.embedding e) (n : Native) :
    (w.exchange e lost).policy? n = w.policy? n := by
  cases n with
  | hosted id => exact (h.policy id).symm
  | _ => rfl

theorem debugAt_exchange (h : ShowsAlike w.embedding e) (fuel depth : Nat) (v : Value) :
    (w.exchange e lost).debugAt fuel depth v = w.debugAt fuel depth v := by
  induction fuel generalizing depth v with
  | zero =>
    cases v with
    | primitive p => simp only [debugAt]
    | _ => rfl
  | succ fuel ih =>
    have hat (depth : Nat) : (w.exchange e lost).debugAt fuel depth = w.debugAt fuel depth :=
      funext fun v => ih depth v
    have htext (n : Native) : (w.exchange e lost).nativeText (w.debugAt fuel 0) n =
        w.nativeText (w.debugAt fuel 0) n := by
      cases n with
      | hosted id => exact (h.display id).symm
      | _ => rfl
    cases v with
    | primitive p => simp only [debugAt]
    | object id => rfl
    | array id =>
      simp only [debugAt, hat]
      rfl
    | bridge id =>
      have hn : (w.exchange e lost).bridgeNative? id = w.bridgeNative? id := rfl
      simp only [debugAt, hat, htext, hn]
    | link id =>
      have hn : (w.exchange e lost).linkNative? id = w.linkNative? id := rfl
      simp only [debugAt, hat, htext, hn, policy?_exchange h]

theorem debugText_exchange (h : ShowsAlike w.embedding e) (v : Value) :
    (w.exchange e lost).debugText v = w.debugText v :=
  debugAt_exchange h w.debugFuel 0 v

end ScriptSandbox.World
