import ScriptSandbox.Proofs.Interleaving
import ScriptSandbox.Proofs.Capability.Closure
import ScriptSandbox.Proofs.Capability.Record

/-
  Which host objects reach a script.

  Every value operation on safe values comes out with a safe value. The lemmas follow the modules of
  the operations: members and calls, coercions, operators. So a script that works with nothing but
  what it has got hold of, gets hold of no bridge but of errors that the runtime raised
  (`only_errors_bridged`): whatever the hosts answer, their objects come in as links.
-/

namespace ScriptSandbox

variable {E α β : Type} [Embedding E]

namespace Ward

variable {k : Ward E} {w : World E}

/-! ## Members and calls -/

theorem Confined.noMembers {good : α → World E → Prop} (h : k.Confined w) (v : Value)
    (name : String) (realm : RealmId) : k.Gives good (v.noMembers name realm) w :=
  Step.meets_read_bind (h.fail realm _)

/-- A bridge among safe values wraps an error. -/
theorem Safe.bridge {id : BridgeId} (hv : k.Safe (.bridge id) w) :
    ∃ b serial name message, w.bridges[id]? = some b ∧ b.native = .error serial name message := by
  obtain ⟨n, hn, serial, name, message, rfl, -⟩ := World.Sealed.bridge hv
  obtain ⟨b, hb, he⟩ := Option.map_eq_some_iff.mp hn
  exact ⟨b, serial, name, message, hb, he⟩

theorem Confined.member (h : k.Confined w) {v : Value} (hv : k.Safe v w) (name : String)
    (realm : RealmId) : k.Gives k.Safe (v.member name realm) w := by
  rcases v with ⟨_ | _ | _ | _ | s⟩ | id | id | id | id <;> simp only [Value.member]
  case primitive.undefined => exact h.noMembers ..
  case primitive.null => exact h.noMembers ..
  case primitive.boolean => exact h.noMembers ..
  case primitive.number => exact h.noMembers ..
  case primitive.string =>
    split
    · exact h.ready (World.sealed_primitive _)
    · exact gives_compute (h.newString _) (World.sealed_primitive _)
    · exact h.ready (World.sealed_primitive _)
  case object => exact h.ready (hv.lookup name)
  case array => exact h.ready (hv.member name)
  case bridge =>
    obtain ⟨b, serial, errorName, message, hb, hn⟩ := Safe.bridge hv
    simp only [Gives, Step.Meets, hb]
    refine Step.meets_read_bind ?_
    split
    · rw [hn]
      exact h.hostGet fun {w' v} _ he w'' hl => hl.confined.fromHost_error b.realm he
    · exact h.ready (World.sealed_primitive _)
  case link =>
    simp only [Gives, Step.Meets]
    split
    · next l hl =>
      refine Step.meets_read_bind ?_
      split
      · exact h.ready (World.sealed_primitive _)
      · refine Step.meets_read_bind ?_
        split
        · exact h.fail ..
        · refine h.hostGet fun {w' v} hl he => ?_
          exact ((hl.confined.getProperty l.native name).2 he).enters l.realm
    · exact h.ready (World.sealed_primitive _)

theorem Confined.put (h : k.Confined w) {v x : Value} (hv : k.Safe v w) (hx : k.Safe x w)
    (name : String) (realm : RealmId) : k.Gives Any (v.put name x realm) w := by
  rcases v with p | id | id | id | id
  case primitive => exact h.noMembers ..
  case object =>
    refine gives_write (h.modifyObject fun o u hu => ?_)
    rcases World.mem_parts_insert hu with hu | rfl
    · exact .inl hu
    · exact .inr hx
  case array =>
    refine gives_write (h.modifyArray fun a u hu => ?_)
    rcases World.mem_put hu with hu | rfl | rfl
    · exact .inl hu
    · exact .inr (World.sealed_primitive _)
    · exact .inr hx
  case bridge =>
    obtain ⟨b, -, -, -, hb, -⟩ := Safe.bridge hv
    simp only [Value.put, Gives, Step.Meets, hb]
    exact (h.crosses hx).bind h fun _ _ hl ha => hl.confined.hostSet b.realm b.native name ha
  case link =>
    simp only [Value.put, Gives, Step.Meets]
    split
    · next l _ =>
      refine Step.meets_read_bind (Step.meets_read_bind ?_)
      split
      · exact h.fail ..
      · refine (h.crosses hx).bind h fun a w₁ hl₁ ha => Step.meets_read_bind ?_
        have hset := hl₁.confined.hostSet l.realm l.native name ha
        refine hset.bind hl₁.confined ?_
        intro _ w₂ hl₂ _
        split
        · exact gives_write (hl₂.confined.modifyCreated id (·.insert name))
        · exact hl₂.confined.ready trivial
    · exact h.ready trivial

theorem Confined.delete (h : k.Confined w) {v : Value} (hv : k.Safe v w) (name : String)
    (realm : RealmId) : k.Gives Any (v.delete name realm) w := by
  rcases v with p | id | id | id | id
  case primitive => exact h.noMembers ..
  case object =>
    have hl : k.Later w (w.modifyObject id fun o =>
        { o with properties := o.properties.erase name }) :=
      h.modifyObject fun o u hu => .inl (World.mem_parts_erase hu)
    exact ⟨fun _ => hl, hl.confined, trivial⟩
  case array =>
    have hl : k.Later w (w.modifyArray id (ScriptArray.delete name)) := by
      refine h.modifyArray ?_
      intro a u hu
      rcases World.mem_delete hu with hu | rfl
      · exact .inl hu
      · exact .inr (World.sealed_primitive _)
    exact ⟨fun _ => hl, hl.confined, trivial⟩
  case bridge =>
    obtain ⟨b, -, -, -, hb, -⟩ := Safe.bridge hv
    simp only [Value.delete, Gives, Step.Meets, hb]
    exact h.hostDelete b.realm b.native name
  case link =>
    simp only [Value.delete, Gives, Step.Meets]
    split
    · next l _ =>
      refine Step.meets_read_bind ?_
      split
      · exact h.ready trivial
      · refine Step.meets_read_bind ?_
        split
        · exact h.fail ..
        · refine (h.hostDelete l.realm l.native name).bind h ?_
          intro deleted w₁ hl₁ _
          split
          · exact (gives_write (hl₁.confined.modifyCreated id (·.erase name))).map hl₁.confined
              fun _ _ => trivial
          · exact hl₁.confined.ready trivial
    · exact h.ready trivial

theorem Confined.call (h : k.Confined w) {v receiver : Value} {args : List Value}
    (hv : k.Safe v w) (hr : k.Safe receiver w) (ha : ∀ a ∈ args, k.Safe a w) (realm : RealmId) :
    k.Gives k.Safe (v.call receiver args realm) w := by
  have refuse (text : String) :
      k.Gives k.Safe (Evaluation.fail realm (.notCallable text) : Evaluation E Value) w := h.fail ..
  rcases v with p | id | id | id | id
  case primitive => exact Step.meets_read_bind (refuse _)
  case array => exact Step.meets_read_bind (refuse _)
  case object =>
    simp only [Value.call, Gives, Step.Meets]
    split
    · refine h.request ?_
      intro u hu
      rcases List.mem_cons.mp hu with rfl | hu
      · exact hv
      · rcases List.mem_cons.mp hu with rfl | hu
        · exact hr
        · exact ha u hu
    · exact Step.meets_read_bind (refuse _)
  case bridge =>
    obtain ⟨b, serial, errorName, message, hb, hn⟩ := Safe.bridge hv
    simp only [Value.call, Gives, Step.Meets, hb, Bridge.call, Evaluation.hostCall, hn]
    exact Step.meets_read_bind (Step.meets_read_bind (h.fail ..))
  case link =>
    simp only [Value.call, Gives, Step.Meets]
    split
    · next l _ => exact h.hostCall l.realm l.native hr ha
    · exact Step.meets_read_bind (refuse _)

theorem Confined.makeThisForNew (h : k.Confined w) {v : Value} (hv : k.Safe v w)
    (realm : RealmId) : k.Gives k.Safe (v.makeThisForNew realm) w := by
  have refuse (text : String) :
      k.Gives k.Safe (Evaluation.fail realm (.notConstructor text) : Evaluation E Value) w :=
    h.fail ..
  have fresh (prototype : Option Value) (hp : ∀ u, prototype = some u → k.Safe u w) :
      k.Gives k.Safe (Step.compute (World.newObject
        { (default : ScriptObject) with prototype := prototype })) w := by
    have hparts : ∀ u ∈ ScriptObject.parts { (default : ScriptObject) with prototype := prototype },
        k.Safe u w := fun u hu => by
      rcases List.mem_append.mp hu with hu | hu
      · cases hu
      · exact hp u (Option.mem_toList.mp hu)
    exact gives_compute (h.newObject hparts) (World.sealed_newObject hparts)
  have plain := fresh none fun _ he => by cases he
  rcases v with p | id | id | id | id
  case primitive => exact Step.meets_read_bind (refuse _)
  case array => exact Step.meets_read_bind (refuse _)
  case object =>
    simp only [Value.makeThisForNew, Gives, Step.Meets]
    split
    · exact fresh _ fun u hu => World.Sealed.reached hv
        (World.reaches_lookup? (Option.filter_eq_some_iff.mp hu).1)
    · exact Step.meets_read_bind (refuse _)
  case bridge =>
    simp only [Value.makeThisForNew, Gives, Step.Meets]
    split
    · exact plain
    · exact Step.meets_read_bind (refuse _)
  case link =>
    simp only [Value.makeThisForNew, Gives, Step.Meets]
    split
    · exact plain
    · exact Step.meets_read_bind (refuse _)

/-! ## Coercions -/

/-- Joining is given for all safe arrays. -/
def Joins (k : Ward E) (joinArray : ArrayId → Evaluation E Primitive) : Prop :=
  ∀ {w : World E} {id}, k.Confined w → k.Safe (.array id) w → k.Gives Any (joinArray id) w

theorem Confined.intrinsicText (h : k.Confined w) {joinArray : ArrayId → Evaluation E Primitive}
    (hj : k.Joins joinArray) {v : Value} (hv : k.Safe v w) :
    k.Gives Any (Evaluation.intrinsicText joinArray v) w := by
  cases v with
  | array id => exact hj h hv
  | _ =>
    have htext (s : String) : k.Gives Any (Step.compute (World.newText s)) w :=
      gives_compute (h.newText s) trivial
    refine Gives.bind (htext _) h ?_
    intro t w' hl _
    exact hl.confined.ready trivial

theorem Confined.convertBy (h : k.Confined w) {joinArray : ArrayId → Evaluation E Primitive}
    (hj : k.Joins joinArray) (realm : RealmId) {v : Value} (hv : k.Safe v w)
    (methods : List ConversionMethod) :
    k.Gives Any (Evaluation.convertBy joinArray realm v methods) w := by
  induction methods generalizing w with
  | nil => exact h.fail ..
  | cons m rest ih =>
    simp only [Evaluation.convertBy, Gives, Step.Meets]
    split
    · next method hm =>
      have hmethod : k.Safe method w := by
        unfold World.conversionMethod? at hm
        split at hm
        · exact World.Sealed.reached hv
            (World.reaches_lookup? (Option.filter_eq_some_iff.mp hm).1)
        · cases hm
      refine Gives.bind (h.holding lasting_safe fun w' hl => hl.confined.call (hl.safe hmethod)
        (hl.safe hv) (fun _ ha => by cases ha) realm) h ?_
      intro result w' hl _
      split
      · exact hl.confined.ready trivial
      · exact hl.confined.holdingAtFirst lasting_any fun _ hl' =>
          ih hl'.confined (hl'.safe (hl.safe hv))
    · cases m with
      | toString => exact h.intrinsicText hj hv
      | valueOf => exact ih h hv

theorem Confined.elementTexts (h : k.Confined w) {toText : Value → Evaluation E String}
    (ht : ∀ {w v}, k.Confined w → k.Safe v w → k.Gives Any (toText v) w) {vs : List Value}
    (hv : ∀ v ∈ vs, k.Safe v w) (done : List String) :
    k.Gives Any (Evaluation.elementTexts toText vs done) w := by
  induction vs generalizing w done with
  | nil => exact h.ready trivial
  | cons v rest ih =>
    have hrest : ∀ v ∈ rest, k.Safe v w := fun v hm => hv v (List.mem_cons_of_mem _ hm)
    have next : k.Gives Any ((Evaluation.holding (Thing.ofValues rest) (toText v)).andThen fun s =>
        Evaluation.elementTexts toText rest (s :: done)) w := by
      refine Gives.bind (h.holding lasting_any fun w' hl =>
        ht hl.confined (hl.safe (hv v List.mem_cons_self))) h ?_
      intro s w' hl _
      exact ih hl.confined (fun v hm => hl.safe (hrest v hm)) _
    cases v with
    | primitive p => exact ih h hrest _
    | _ => exact next

theorem joins_join {toText : Value → Evaluation E String}
    (ht : ∀ {w v}, k.Confined w → k.Safe v w → k.Gives Any (toText v) w) :
    k.Joins (Evaluation.join toText) := by
  intro w id h hv
  have mark {w : World E} (h : k.Confined w) (joining : Bool) :
      k.Later w (World.markJoining id joining w) := h.modifyArray fun _ _ hu => .inl hu
  simp only [Evaluation.join, Gives, Step.Meets]
  split
  · exact h.ready trivial
  · refine ⟨fun h => mark h true, ?_⟩
    have hl := mark h true
    refine Step.Meets.releasing ?_ (stable_outcome lasting_any) fun w' _ h' => mark h' false
    refine Gives.bind (hl.confined.holding lasting_any fun w' hl' =>
      hl'.confined.elementTexts ht (fun v hm => ?_) []) hl.confined fun texts w' hl' _ => ?_
    · exact (hl.trans hl').safe (hv.leadsTo (Array.mem_toList_iff.mp hm))
    · have htext : k.Gives Any (Step.compute (World.newText (",".intercalate texts))) w' :=
        gives_compute (hl'.confined.newText _) trivial
      exact htext.bind hl'.confined fun _ _ hl'' _ => hl''.confined.ready trivial

theorem Confined.toPrimitiveBy (h : k.Confined w) {joinArray : ArrayId → Evaluation E Primitive}
    (hj : k.Joins joinArray) (realm : RealmId) (hint : Hint) {v : Value} (hv : k.Safe v w) :
    k.Gives Any (Evaluation.toPrimitiveBy joinArray realm hint v) w := by
  cases v with
  | primitive p => exact h.ready trivial
  | object id => exact h.convertBy hj realm hv _
  | array id => exact h.convertBy hj realm hv _
  | bridge id =>
    simp only [Evaluation.toPrimitiveBy, Gives, Step.Meets]
    split
    · exact h.hostToPrimitive _
    · exact h.ready trivial
  | link id =>
    simp only [Evaluation.toPrimitiveBy, Gives, Step.Meets]
    split
    · exact h.hostToPrimitive _
    · exact h.ready trivial

theorem joins_joinWithin (realm : RealmId) (depth : Nat) :
    k.Joins (Evaluation.joinWithin (E := E) realm depth) := by
  induction depth with
  | zero => exact fun _ _ => trivial
  | succ depth ih =>
    refine joins_join fun h hv => ?_
    exact Gives.bind (h.toPrimitiveBy ih realm .string hv) h fun _ _ hl _ =>
      hl.confined.ready trivial

theorem Confined.toPrimitive (h : k.Confined w) {v : Value} (hv : k.Safe v w) (hint : Hint)
    (realm : RealmId) : k.Gives Any (v.toPrimitive hint realm) w := by
  have within (depth : Nat) := h.toPrimitiveBy (joins_joinWithin realm depth) realm hint hv
  simp only [Value.toPrimitive, Gives, Step.Meets]
  exact within _

theorem Confined.toNumber (h : k.Confined w) {v : Value} (hv : k.Safe v w) (realm : RealmId) :
    k.Gives Any (v.toNumber realm) w :=
  Gives.bind (h.toPrimitive hv .number realm) h fun _ _ hl _ => hl.confined.orFault _

/-! ## Operators -/

theorem Confined.binary (h : k.Confined w) {a b : Value} (ha : k.Safe a w) (hb : k.Safe b w)
    (op : NumericOperator) (realm : RealmId) : k.Gives k.Safe (a.binary op b realm) w := by
  refine Gives.bind (h.holding lasting_any fun _ hl => hl.confined.toNumber (hl.safe ha) realm) h ?_
  intro x w₁ hl₁ _
  refine (hl₁.confined.toNumber (hl₁.safe hb) realm).bind hl₁.confined ?_
  intro y w₂ hl₂ _
  refine hl₂.confined.ready ?_
  cases op <;> exact World.sealed_primitive _

theorem Confined.addPrimitives (h : k.Confined w) (a b : Primitive) :
    k.Gives k.Safe (Value.addPrimitives a b) w := by
  unfold Value.addPrimitives
  split
  · exact gives_compute (h.newString _) (World.sealed_primitive _)
  · refine (h.orFault _).bind h fun _ _ hl _ => (hl.confined.orFault _).bind hl.confined ?_
    exact fun _ _ hl' _ => hl'.confined.ready (World.sealed_primitive _)

theorem Confined.add (h : k.Confined w) {a b : Value} (ha : k.Safe a w) (hb : k.Safe b w)
    (realm : RealmId) : k.Gives k.Safe (a.add b realm) w := by
  refine Gives.bind (h.holding lasting_any fun _ hl =>
    hl.confined.toPrimitive (hl.safe ha) .default realm) h ?_
  intro x w₁ hl₁ _
  refine (hl₁.confined.toPrimitive (hl₁.safe hb) .default realm).bind hl₁.confined ?_
  exact fun _ _ hl₂ _ => hl₂.confined.addPrimitives _ _

theorem Confined.looseEq (h : k.Confined w) {a b : Value} (ha : k.Safe a w) (hb : k.Safe b w)
    (realm : RealmId) : k.Gives Any (a.looseEq b realm) w := by
  unfold Value.looseEq
  split
  · exact h.orFault _
  · split
    · exact h.ready trivial
    · exact (h.toPrimitive hb .default realm).bind h fun _ _ hl _ => hl.confined.orFault _
  · split
    · exact h.ready trivial
    · exact (h.toPrimitive ha .default realm).bind h fun _ _ hl _ => hl.confined.orFault _
  · exact h.ready trivial

variable (k) in
/-- The values in a reply are safe. -/
def SafeReply (r : Reply) (w : World E) : Prop := ∀ v ∈ r.values, k.Safe v w

theorem lasting_safeReply : k.Lasting k.SafeReply := fun _ _ _ hl h v hv => hl.safe (h v hv)

/-- A reply with a value that was come by safely. -/
theorem Gives.value {s : Evaluation E Value} (hs : k.Gives k.Safe s w) (h : k.Confined w)
    {f : Value → β} {reply : β → Reply} (hf : ∀ v, (reply (f v)).values = [v]) :
    k.Gives (fun b => k.SafeReply (reply b)) (s >>= fun v => Step.ready (f v)) w := by
  refine hs.map h fun {v w'} _ hv u hu => ?_
  rw [hf v, List.mem_singleton] at hu
  exact hu ▸ hv

/-- A reply without a value. -/
theorem Gives.plain {s : Evaluation E α} (hs : k.Gives Any s w) (h : k.Confined w)
    {f : α → β} {reply : β → Reply} (hf : ∀ a, (reply (f a)).values = []) :
    k.Gives (fun b => k.SafeReply (reply b)) (s >>= fun a => Step.ready (f a)) w := by
  refine hs.map h fun {a w'} _ _ u hu => ?_
  rw [hf a] at hu
  cases hu

theorem Confined.unary (h : k.Confined w) {v : Value} (hv : k.Safe v w) (op : UnaryOperation)
    (realm : RealmId) : k.Gives (fun r => k.SafeReply (.result r)) (op.step realm v) w := by
  have number (f : Binary64 → Binary64) :
      k.Gives k.Safe (v.toNumber realm >>= fun n => Step.ready (.number (f n))) w :=
    (h.toNumber hv realm).map h fun _ _ => World.sealed_primitive _
  have converted {γ : Type} (f : Binary64 → γ) :
      k.Gives Any (v.toNumber realm >>= fun n => Step.ready (f n)) w :=
    (h.toNumber hv realm).map h fun _ _ => trivial
  cases op with
  | toNumber => exact (h.toNumber hv realm).plain h fun _ => rfl
  | toNumberValue => exact (h.toNumber hv realm).plain h fun _ => rfl
  | toText =>
    refine Gives.plain (Gives.bind (h.toPrimitive hv .string realm) h ?_) h fun _ => rfl
    exact fun _ _ hl _ => hl.confined.ready trivial
  | toBoolean => exact h.ready fun _ hu => by cases hu
  | toInt32 => exact (converted Binary64.toInt32).plain h fun _ => rfl
  | toUInt32 => exact (converted Binary64.toUInt32).plain h fun _ => rfl
  | toInteger => exact (converted Binary64.toInteger).plain h fun _ => rfl
  | negate => exact (number Binary64.neg).value h fun _ => rfl
  | unaryPlus => exact (number id).value h fun _ => rfl
  | bitNot => exact (number Binary64.bitNot).value h fun _ => rfl
  | not => exact (h.ready (World.sealed_primitive _)).value h fun _ => rfl
  | typeOf =>
    have htext : k.Gives k.Safe (Step.compute (World.newString (w.typeName v))) w :=
      gives_compute (h.newString _) (World.sealed_primitive _)
    exact htext.value h fun _ => rfl
  | makeThisForNew => exact (h.makeThisForNew hv realm).value h fun _ => rfl

theorem Confined.binaryOperation (h : k.Confined w) {a b : Value} (ha : k.Safe a w)
    (hb : k.Safe b w) (op : BinaryOperation) (realm : RealmId) :
    k.Gives (fun r => k.SafeReply (.result r)) (op.step realm a b) w := by
  cases op with
  | numeric op => exact (h.binary ha hb op realm).value h fun _ => rfl
  | add => exact (h.add ha hb realm).value h fun _ => rfl
  | strictEq => exact h.ready fun _ hu => by cases hu
  | strictNe => exact h.ready fun _ hu => by cases hu
  | looseEq => exact (h.looseEq ha hb realm).plain h fun _ => rfl
  | looseNe =>
    refine Gives.plain (Gives.bind (h.looseEq ha hb realm) h ?_) h fun _ => rfl
    exact fun _ _ hl _ => hl.confined.ready trivial

/-! ## Runs -/

/-- Every operation on safe values gives safe values. -/
theorem Confined.operation (h : k.Confined w) {op : ValueOperation}
    (ho : ∀ v ∈ op.operands, k.Safe v w) (realm : RealmId) :
    k.Gives k.SafeReply (op.step realm) w := by
  have reply {s : Evaluation E Result} (hs : k.Gives (fun r => k.SafeReply (.result r)) s w) :
      k.Gives k.SafeReply (s >>= fun r => Step.ready (.result r)) w := hs.map h fun _ hr => hr
  cases op with
  | member base name =>
    have hb := ho base List.mem_cons_self
    exact (h.member hb name realm).value h fun _ => rfl
  | put base name x =>
    have hb := ho base List.mem_cons_self
    have hx := ho x (List.mem_cons_of_mem _ List.mem_cons_self)
    exact (h.put hb hx name realm).plain h fun _ => rfl
  | delete base name =>
    have hb := ho base List.mem_cons_self
    exact (h.delete hb name realm).plain h fun _ => rfl
  | refer base name =>
    have hb := ho base List.mem_cons_self
    exact h.ready fun _ hu => List.mem_singleton.mp hu ▸ hb
  | get r =>
    have hb := ho r.base List.mem_cons_self
    refine Gives.value ?_ h fun _ => rfl
    unfold Reference.get
    split
    · exact h.fail ..
    · exact h.member hb r.name realm
  | set r x =>
    have hb := ho r.base List.mem_cons_self
    have hx := ho x (List.mem_cons_of_mem _ List.mem_cons_self)
    refine Gives.plain ?_ h fun _ => rfl
    unfold Reference.set
    split
    · exact h.fail ..
    · exact h.put hb hx r.name realm
  | remove r =>
    have hb := ho r.base List.mem_cons_self
    refine Gives.plain ?_ h fun _ => rfl
    unfold Reference.delete
    split
    · exact h.fail ..
    · exact h.delete hb r.name realm
  | describe v => exact h.ready fun _ hu => by cases hu
  | call callee receiver args =>
    have hc := ho callee List.mem_cons_self
    have hr := ho receiver (List.mem_cons_of_mem _ List.mem_cons_self)
    have ha : ∀ a ∈ args, k.Safe a w := fun a ha =>
      ho a (List.mem_cons_of_mem _ (List.mem_cons_of_mem _ ha))
    exact (h.call hc hr ha realm).value h fun _ => rfl
  | toPrimitive v hint =>
    have hv := ho v List.mem_cons_self
    refine (h.toPrimitive hv hint realm).map h fun _ _ u hu => ?_
    exact List.mem_singleton.mp hu ▸ World.sealed_primitive _
  | unary op v => exact reply (h.unary (ho v List.mem_cons_self) op realm)
  | binary op a b =>
    have ha := ho a List.mem_cons_self
    have hb := ho b (List.mem_cons_of_mem _ List.mem_cons_self)
    exact reply (h.binaryOperation ha hb op realm)

/-- A chore with safe values keeps the world confined and makes a safe value, if any. -/
theorem Confined.perform (h : k.Confined w) {ch : Chore} (ho : ∀ v ∈ ch.operands, k.Safe v w) :
    k.Later w (ch.perform w).2 ∧ ∀ {v}, (ch.perform w).1 = some v → k.Safe v (ch.perform w).2 := by
  cases ch with
  | object o =>
    refine ⟨h.newObject ho, fun he => ?_⟩
    cases he
    exact World.sealed_newObject ho
  | array elements =>
    have hs : ∀ u ∈ elements, k.Safe u w := fun u hu => ho u (Array.mem_toList_iff.mpr hu)
    refine ⟨h.newArray hs, fun he => ?_⟩
    cases he
    exact World.sealed_newArray hs
  | text s =>
    refine ⟨h.newString s, fun he => ?_⟩
    cases he
    exact World.sealed_primitive _
  | inherit id prototype =>
    refine ⟨?_, fun he => by cases he⟩
    rcases w.setPrototype_eq id prototype with hp | hp
    · simp only [Chore.perform, hp]
      exact h.refl
    · simp only [Chore.perform, hp]
      refine h.modifyObject ?_
      intro o u hu
      rcases List.mem_append.mp hu with hu | hu
      · exact .inl (List.mem_append_left _ hu)
      · exact .inr (ho u (List.mem_cons_of_mem _ hu))
  | hold things => exact ⟨h.hold things, fun he => by cases he⟩
  | letGo things => exact ⟨h.letGo things, fun he => by cases he⟩
  | collect => exact ⟨h.collect [], fun he => by cases he⟩

variable (k) in
/-- What a run keeps: the world is confined, what is pending keeps to the contract, and the script
    knows safe values only. -/
structure Guarded (s : Stage E) : Prop where
  confined : k.Confined s.world
  keeps : s.Keeps k.closure fun _ => k.Outcome k.SafeReply
  known : ∀ v ∈ s.known, k.Safe v s.world

theorem Guarded.knows {s : Stage E} (h : k.Guarded s) {v : Value} (hv : s.knows v = true) :
    k.Safe v s.world := by
  rcases Bool.or_eq_true_iff.mp hv with hp | hk
  · cases v with
    | primitive p => exact World.sealed_primitive p
    | _ => cases hp
  · exact h.known v (List.contains_iff_mem.mp hk)

/-- What comes out at a front that meets the contract is safe. -/
theorem safe_of_front {f : Step.Front (World E) Reply}
    (hf : f.Meets k.closure (k.Outcome k.SafeReply) w) {v : Value} (hv : v ∈ f.values) :
    k.Safe v w := by
  rcases f with (c | r) | e | ⟨_ | ⟨callee, receiver, args⟩, release, resume⟩
  · exact List.mem_singleton.mp hv ▸ hf.2
  · exact hf.2 v hv
  · cases hv
  · cases hv
  · exact hf.1.2 v hv

theorem Guarded.advance {s : Stage E} {e : Event} (h : k.Guarded s) (ha : s.onKnown e = true) :
    k.Guarded (s.advance e) := by
  have safe {vs : List Value} (hvs : vs.all s.knows = true) : ∀ v ∈ vs, k.Safe v s.world :=
    fun v hv => h.knows (List.all_eq_true.mp hvs v hv)
  have he : e.Meets k.closure (fun _ => k.Outcome k.SafeReply) s.world := by
    cases e with
    | start realm op => exact h.confined.operation (safe ha) realm
    | answer index flow =>
      intro r
      cases flow with
      | ok v => exact ⟨h.confined, h.knows ha⟩
      | error c => exact ⟨h.confined, h.knows ha⟩
    | abandon index => trivial
    | chore ch => exact fun hc => (hc.perform (safe ha)).1
  have stable (_ : ValueOperation) : k.closure.Stable (k.Outcome k.SafeReply) :=
    stable_outcome lasting_safeReply
  obtain ⟨hw, hk⟩ := Stage.keeps_advance stable h.keeps he
  have hl := hw h.confined
  refine ⟨hl.confined, hk, fun v hv => ?_⟩
  rcases Stage.mem_known_advance hv with hold | ⟨a, hmem, hout⟩ | ⟨ch, rfl, hmade⟩
  · exact hl.safe (h.known v hold)
  · exact safe_of_front (hk a hmem) hout
  · exact (h.confined.perform (safe ha)).2 hmade

end Ward

/-- A script that starts with safe values in a confined world, and works with what it has got hold
    of only, reaches no bridge but of errors that had been raised before or were raised since. -/
theorem Custody.only_errors_bridged (k : Custody E) (before : Native → Prop) {w : World E}
    {known : List Value} (h : (Ward.mk k before w.nextNative).Confined w)
    (safe : ∀ v ∈ known, (Ward.mk k before w.nextNative).Safe v w) (events : List Event) :
    let s := (Stage.idle w known).run Stage.onKnown events
    ∀ v ∈ s.known, ∀ id, s.world.Reaches v (.bridge id) →
      ∃ serial name message, s.world.bridgeNative? id = some (.error serial name message) ∧
        (before (.error serial name message) ∨ w.nextNative ≤ serial) := by
  have hs := Stage.run_induction (s := Stage.idle w known)
    (I := (Ward.mk k before w.nextNative).Guarded) ⟨h, Stage.keeps_idle w known, safe⟩
    (fun _ _ hs ha => hs.advance ha) events
  intro s v hv id hr
  obtain ⟨n, hn, serial, name, message, rfl, hraised⟩ := hs.known v hv id hr
  exact ⟨serial, name, message, hn, hraised⟩

namespace Session

/-- A host with another host object and a bookmark of a script object among its properties, of which
    the last one cannot be read. -/
def toolbox : Record where
  label := "toolbox"
  properties := ⟨[("tool", .object (.hosted 1)), ("callback", .object (.bookmark 0 (.object 0))),
    ("key", .number .zero)]⟩
  policy := some ⟨some ["tool", "callback"], none, none, none, none⟩
  kind := .passive false

/-- A world with a link on a toolbox and an object that the toolbox keeps a bookmark of. -/
def toolboxWorld : World Session :=
  { World.empty (ofRecords #[toolbox, default]) with
    objects := #[⟨⟨[("note", .null)]⟩, none, none⟩]
    links := #[⟨0, .hosted 0, ∅, true⟩]
    realms := #[.fresh .allow]
    nextNative := 1
    held := [.value (.link 0)] }

theorem safe_toolbox {v : Value} (hv : ∀ id, v ≠ .bridge id) :
    (Ward.mk custody (fun _ => False) 1).Safe v toolboxWorld := by
  refine World.sealed_of_closed (S := fun v => ∀ id, v ≠ .bridge id) hv (fun {v u} _ hu => ?_)
    fun h => absurd rfl (h _)
  match v with
  | .object 0 => cases List.mem_singleton.mp hu; exact fun _ h => by cases h
  | .object (_ + 1) => cases hu
  | .array _ => exact absurd hu (Array.not_mem_empty u)

theorem confined_toolbox : (Ward.mk custody (fun _ => False) 1).Confined toolboxWorld where
  kept := by
    rintro t ⟨id, h, hh, ht⟩
    have hobject : t = .object 0 := by
      match id with
      | 0 =>
        rcases List.mem_cons.mp hh with rfl | hh
        · cases ht
        · rcases List.mem_cons.mp hh with rfl | hh
          · exact List.mem_singleton.mp ht
          · cases List.mem_singleton.mp hh
            cases ht
      | 1 => cases hh
      | _ + 2 => cases hh
    exact safe_toolbox fun _ h => by cases hobject.symm.trans h
  wellKnown {realm entry} he := by
    match realm with
    | 0 => cases he
    | _ + 1 => cases he
  linked {id n t} hn ht := by
    match id with
    | 0 => cases hn; cases ht
    | _ + 1 => cases hn
  fresh realm {serial id} he := by
    match realm with
    | 0 => cases he
    | _ + 1 => cases he
  started := Nat.le_refl _

/-- The tool comes in as a link and the callback as the object it stands for; the only bridge is
    that of the error for reading the key. -/
theorem only_errors_bridged_toolbox :
    (Ward.mk custody (fun _ => False) 1).Confined toolboxWorld ∧
      (∀ v ∈ [Value.link 0], (Ward.mk custody (fun _ => False) 1).Safe v toolboxWorld) ∧
      let s := (Stage.idle toolboxWorld [.link 0]).run Stage.onKnown
        [.start 0 (.member (.link 0) "tool"), .start 0 (.member (.link 0) "callback"),
          .start 0 (.member (.link 0) "key"), .answer 1 (.ok .undefined),
          .answer 0 (.ok .undefined)]
      s.known = [.link 1, .object 0, .bridge 0, .link 0] ∧
        ∀ v ∈ s.known, ∀ id, s.world.Reaches v (.bridge id) →
          ∃ serial name message, s.world.bridgeNative? id = some (.error serial name message) ∧
            (False ∨ 1 ≤ serial) := by
  have safe : ∀ v ∈ [Value.link 0], (Ward.mk custody (fun _ => False) 1).Safe v toolboxWorld :=
    fun v hv => List.mem_singleton.mp hv ▸ World.sealed_link 0
  exact ⟨confined_toolbox, safe, by decide +kernel,
    custody.only_errors_bridged (fun _ => False) confined_toolbox safe _⟩

end Session

end ScriptSandbox
