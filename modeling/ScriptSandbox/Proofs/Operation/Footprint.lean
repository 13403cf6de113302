import ScriptSandbox.Proofs.Operation.Composition
import ScriptSandbox.Proofs.Operation.HostAccess
import ScriptSandbox.Proofs.Step.Guarantee
import ScriptSandbox.Proofs.World.Elementary
import ScriptSandbox.Proofs.World.Still

/-
  What operations change.

  Every operation on values is built from elementary changes, and only a write through a link makes
  the link take up a name, only a delete makes it forget one (`touches_step`). The lemmas follow the
  modules of the operations: host accesses, members and calls, coercions, operators.
-/

namespace ScriptSandbox

variable {E α β : Type} [Embedding E]

/-- The computation is made of elementary changes, as far as they are allowed. -/
abbrev Step.Touches (allows : World.Allowance) (s : Evaluation E α) (w : World E) : Prop :=
  s.Makes (World.Changes allows) w

variable {allows : World.Allowance} {w : World E}

/-! ## Host accesses -/

namespace Evaluation

theorem touches_bind {s : Evaluation E α} {f : α → Evaluation E β} (h : s.Touches allows w)
    (hf : ∀ a w', (f a).Touches allows w') : Step.Touches allows (s >>= f) w :=
  Step.Makes.andThen h hf

theorem touches_ready (a : α) : Step.Touches allows (.ready a : Evaluation E α) w := trivial

theorem touches_fail (realm : RealmId) (f : Failure) :
    Step.Touches allows (fail realm f : Evaluation E α) w :=
  ⟨World.changes_scriptError realm _ _ w, trivial⟩

theorem touches_unless {c : Prop} [Decidable c] {s : Evaluation E α} {realm : RealmId}
    {f : Failure} (hs : s.Touches allows w) :
    Step.Touches allows (if c then fail realm f else s) w := by
  split
  · exact touches_fail realm f
  · exact hs

theorem touches_holding {things : List Thing} {s : Evaluation E α}
    (h : ∀ w', s.Touches allows w') : Step.Touches allows (holding things s) w :=
  ⟨.single (.hold things w),
    (h _).releasing .trans fun w' => .single (.letGo things w')⟩

theorem touches_holdingAtFirst {things : List Thing} {s : Evaluation E α}
    (h : ∀ w', s.Touches allows w') : Step.Touches allows (holdingAtFirst things s) w :=
  ⟨.single (.hold things w), (h _).untilRequest fun w' => .single (.letGo things w')⟩

theorem touches_toHost_bind {v : Value} {k : HostValue → Evaluation E α}
    (hk : ∀ h, (k h).Touches allows (w.toHost v).2) :
    Step.Touches allows (toHost v >>= k) w := by
  rw [Step.bind_eq_andThen, toHost, Step.andThen_assoc]
  refine Step.makes_compute_andThen (World.changes_toHost v w) ?_
  generalize (w.toHost v).1 = converted
  cases converted with
  | none => trivial
  | some h => exact hk h

theorem touches_toHostList_bind {vs : List Value} {k : List HostValue → Evaluation E α}
    (hk : ∀ hs, (k hs).Touches allows (w.toHostList vs).2) :
    Step.Touches allows (toHostList vs >>= k) w := by
  rw [Step.bind_eq_andThen, toHostList, Step.andThen_assoc]
  refine Step.makes_compute_andThen (World.changes_toHostList vs w) ?_
  generalize (w.toHostList vs).1 = converted
  cases converted with
  | none => trivial
  | some hs => exact hk hs

theorem touches_hostResult (realm : RealmId) {method : World E → Except HostError α × World E}
    (h : World.Changes allows w (method w).2) :
    Step.Touches allows (hostResult realm method) w := by
  refine Step.Makes.andThen (Step.makes_compute h) fun result w' => ?_
  cases result with
  | ok a => trivial
  | error e => exact ⟨World.changes_hostError realm e w', trivial⟩

theorem touches_checkpoint {k : Unit → Evaluation E α} (hk : ∀ w', (k ()).Touches allows w') :
    Step.Touches allows (Step.checkpoint >>= k) w :=
  Step.makes_checkpoint_bind (fun _ => .refl) hk

/-- How a host value enters the script makes elementary changes. -/
def Gentle (allows : World.Allowance) (wrap : Wrapper E) : Prop :=
  ∀ realm h w, World.Changes allows w (wrap realm h w).2

theorem gentle_link : Gentle allows (World.link : Wrapper E) := World.changes_link

theorem gentle_fromHost : Gentle allows (World.fromHost : Wrapper E) := World.changes_fromHost

variable {wrap : Wrapper E}

theorem touches_enter (hw : Gentle allows wrap) (realm : RealmId) (h : HostValue) :
    Step.Touches allows (enter wrap realm h) w :=
  ⟨.single (.collect h.things w), Step.makes_compute (hw realm h _)⟩

theorem touches_hostGet (hw : Gentle allows wrap) (realm : RealmId) (n : Native)
    (name : String) : Step.Touches allows (hostGet wrap realm n name) w :=
  touches_checkpoint fun _ => touches_holding fun w' =>
    touches_bind (touches_hostResult realm (World.changes_getProperty n name w')) fun h _ =>
      touches_enter hw realm h

theorem touches_hostSet (realm : RealmId) (n : Native) (name : String) (value : HostValue) :
    Step.Touches allows (hostSet realm n name value : Evaluation E Unit) w :=
  touches_checkpoint fun _ => touches_holding fun w' =>
    touches_hostResult realm (World.changes_setProperty n name value w')

theorem touches_hostDelete (realm : RealmId) (n : Native) (name : String) :
    Step.Touches allows (hostDelete realm n name : Evaluation E Bool) w :=
  touches_checkpoint fun _ => touches_holding fun w' =>
    touches_hostResult realm (World.changes_deleteProperty n name w')

theorem touches_hostCall (hw : Gentle allows wrap) (realm : RealmId) (n : Native)
    (receiver : Value) (args : List Value) :
    Step.Touches allows (hostCall wrap realm n receiver args) w := by
  show Step.Touches allows (ite (w.isNativeCallable n = true) _ _) w
  split
  · refine touches_toHost_bind fun receiver' => touches_toHostList_bind fun args' => ?_
    refine touches_checkpoint fun _ => touches_holding fun w' => ?_
    refine touches_bind (touches_hostResult realm ?_) fun h _ => touches_enter hw realm h
    exact World.changes_callNative n receiver' args' w'
  · exact touches_fail realm _

theorem touches_hostToPrimitive (n : Native) :
    Step.Touches allows (hostToPrimitive n : Evaluation E Primitive) w :=
  touches_checkpoint fun w' => Step.makes_compute (World.changes_hostPrimitive n w')

end Evaluation

open Evaluation

/-! ## Links -/

namespace Link

variable {l : Link} {id : LinkId} {name : String}

theorem touches_member : (l.member name : Evaluation E Value).Touches allows w := by
  show Step.Touches allows (ite ((!w.hasProperty l.native name) = true) _ _) w
  split
  · trivial
  · show Step.Touches allows (ite ((!w.allowsRead l name) = true) _ _) w
    exact touches_unless (touches_hostGet gentle_link l.realm l.native name)

/-- A write makes the link take up the name at most where the property does not exist yet and the
    realm tracks new properties. -/
theorem touches_put {value : Value}
    (h : w.hasProperty l.native name = false →
      (w.realm l.realm).newProperties = .trackCreated → allows.adds id name) :
    (l.put id name value : Evaluation E Unit).Touches allows w := by
  show Step.Touches allows (ite ((!!w.hasProperty l.native name && !w.allowsWrite l name) =
    true) _ _) w
  refine touches_unless (touches_toHost_bind fun x => ?_)
  -- whether the realm tracks is looked up in the world that the conversion left
  show Step.Touches allows (hostSet l.realm l.native name x >>= fun _ =>
    ite ((!w.hasProperty l.native name &&
      ((w.toHost value).2.realm l.realm).newProperties == .trackCreated) = true) _ _)
    (w.toHost value).2
  rw [(World.still_toHost value w).conduct l.realm]
  refine touches_bind (touches_hostSet l.realm l.native name x) fun _ w' => ?_
  split
  · next htracks =>
    rw [Bool.and_eq_true, Bool.not_eq_true', beq_iff_eq] at htracks
    exact ⟨.single (.add (h htracks.1 htracks.2) w'), trivial⟩
  · trivial

theorem touches_delete (h : allows.removes id name) :
    (l.delete id name : Evaluation E Bool).Touches allows w := by
  show Step.Touches allows (ite ((!w.hasProperty l.native name) = true) _ _) w
  split
  · trivial
  · show Step.Touches allows (ite ((!w.allowsWrite l name) = true) _ _) w
    refine touches_unless ?_
    refine touches_bind (touches_hostDelete l.realm l.native name) fun deleted w' => ?_
    cases deleted with
    | true => exact ⟨.single (.remove h w'), trivial⟩
    | false => trivial

end Link

/-! ## Members and calls -/

theorem ScriptArray.joining_put (name : String) (value : Value) (a : ScriptArray) :
    (a.put name value).joining = a.joining := by
  unfold put
  split
  · split <;> rfl
  · split
    · split <;> rfl
    · rfl

theorem ScriptArray.joining_delete (name : String) (a : ScriptArray) :
    (a.delete name).joining = a.joining := by
  unfold delete
  split
  · split <;> rfl
  · rfl

namespace Value

variable {v : Value} {name : String} {realm : RealmId}

theorem touches_noMembers :
    (v.noMembers name realm : Evaluation E α).Touches allows w := touches_fail realm _

theorem touches_member : (v.member name realm : Evaluation E Value).Touches allows w := by
  rcases v with ⟨_ | _ | _ | _ | s⟩ | id | id | id | id <;> simp only [Value.member]
  case primitive.undefined => exact touches_noMembers
  case primitive.null => exact touches_noMembers
  case primitive.boolean => exact touches_noMembers
  case primitive.number => exact touches_noMembers
  case primitive.string =>
    split
    · trivial
    · exact Step.makes_compute (.single (.text _ w))
    · trivial
  case object => trivial
  case array => trivial
  case bridge =>
    simp only [Step.Touches, Step.Makes]
    split
    · next b _ =>
      show Step.Touches allows (ite (w.hasProperty b.native name = true) _ _) w
      split
      · exact touches_hostGet gentle_fromHost b.realm b.native name
      · trivial
    · trivial
  case link =>
    simp only [Step.Touches, Step.Makes]
    split
    · exact Link.touches_member
    · trivial

theorem touches_put {value : Value}
    (h : ∀ id l, v = .link id → w.links[id]? = some l → w.hasProperty l.native name = false →
      (w.realm l.realm).newProperties = .trackCreated → allows.adds id name) :
    (v.put name value realm : Evaluation E Unit).Touches allows w := by
  rcases v with p | id | id | id | id
  case primitive => exact touches_noMembers
  case object => exact ⟨.single (.modifyObject id _ w), trivial⟩
  case array => exact ⟨.single (.modifyArray id (ScriptArray.joining_put name value) w), trivial⟩
  case bridge =>
    simp only [Value.put, Step.Touches, Step.Makes]
    split
    · next b _ => exact touches_toHost_bind fun x => touches_hostSet b.realm b.native name x
    · trivial
  case link =>
    simp only [Value.put, Step.Touches, Step.Makes]
    split
    · next l hl => exact Link.touches_put (h id l rfl hl)
    · trivial

theorem touches_delete (h : ∀ id, v = .link id → allows.removes id name) :
    (v.delete name realm : Evaluation E Bool).Touches allows w := by
  rcases v with p | id | id | id | id
  case primitive => exact touches_noMembers
  case object => exact ⟨.single (.modifyObject id _ w), trivial⟩
  case array => exact ⟨.single (.modifyArray id (ScriptArray.joining_delete name) w), trivial⟩
  case bridge =>
    simp only [Value.delete, Step.Touches, Step.Makes]
    split
    · next b _ => exact touches_hostDelete b.realm b.native name
    · trivial
  case link =>
    simp only [Value.delete, Step.Touches, Step.Makes]
    split
    · exact Link.touches_delete (h id rfl)
    · trivial

theorem touches_call {receiver : Value} {args : List Value} :
    (v.call receiver args realm : Evaluation E Value).Touches allows w := by
  have refuse (text : String) :
      Step.Touches allows (fail realm (.notCallable text) : Evaluation E Value) w :=
    touches_fail realm _
  rcases v with p | id | id | id | id
  case primitive => exact refuse _
  case array => exact refuse _
  case object =>
    simp only [Value.call, Step.Touches, Step.Makes]
    split
    · exact ⟨fun _ => .refl, fun _ _ => trivial⟩
    · exact refuse _
  case bridge =>
    simp only [Value.call, Step.Touches, Step.Makes]
    split
    · next b _ => exact touches_hostCall gentle_fromHost b.realm b.native receiver args
    · exact refuse _
  case link =>
    simp only [Value.call, Step.Touches, Step.Makes]
    split
    · next l _ => exact touches_hostCall gentle_link l.realm l.native receiver args
    · exact refuse _

theorem touches_makeThisForNew :
    (v.makeThisForNew realm : Evaluation E Value).Touches allows w := by
  have refuse (text : String) :
      Step.Touches allows (fail realm (.notConstructor text) : Evaluation E Value) w :=
    touches_fail realm _
  have fresh (o : ScriptObject) : Step.Touches allows (Step.compute (World.newObject o)) w :=
    Step.makes_compute (.single (.object o w))
  rcases v with p | id | id | id | id
  case primitive => exact refuse _
  case array => exact refuse _
  case object =>
    simp only [Value.makeThisForNew, Step.Touches, Step.Makes]
    split
    · exact fresh _
    · exact refuse _
  case bridge =>
    simp only [Value.makeThisForNew, Step.Touches, Step.Makes]
    split
    · exact fresh _
    · exact refuse _
  case link =>
    simp only [Value.makeThisForNew, Step.Touches, Step.Makes]
    split
    · exact fresh _
    · exact refuse _

end Value

/-! ## Coercions -/

/-- A property that a coercion has because its parts have it. It comes with changes that need no
    allowance; it is kept by looking, going on and holding, and by joining an array that is not
    being joined already. -/
structure Evaluation.Discipline (P : (α : Type) → Evaluation E α → World E → Prop) : Prop where
  plain {α : Type} {s : Evaluation E α} {w : World E} (h : s.Touches .nothing w) : P α s w
  inspect {α : Type} {next : World E → Evaluation E α} {w : World E} (h : P α (next w) w) :
    P α (.inspect next) w
  andThen {α β : Type} {s : Evaluation E α} {f : α → Evaluation E β} {w : World E} (h : P α s w)
    (hf : ∀ a w', P β (f a) w') : P β (s.andThen f) w
  holding {α : Type} {things : List Thing} {s : Evaluation E α} {w : World E}
    (h : ∀ w', P α s w') : P α (holding things s) w
  holdingAtFirst {α : Type} {things : List Thing} {s : Evaluation E α} {w : World E}
    (h : ∀ w', P α s w') : P α (holdingAtFirst things s) w
  joining {α : Type} {id : ArrayId} {s : Evaluation E α} {w : World E}
    (hw : (w.array id).joining = false) (h : ∀ w', P α s w') :
    P α (.modify (World.markJoining id true) (s.releasing (World.markJoining id false))) w

/-- What else a coercion does makes elementary changes. -/
theorem Evaluation.Discipline.coercing {P : (α : Type) → Evaluation E α → World E → Prop}
    (hP : Discipline P) : Coercing P where
  ready _ := hP.plain trivial
  fault _ := hP.plain trivial
  inspect := hP.inspect
  andThen := hP.andThen
  holding := hP.holding
  holdingAtFirst := hP.holdingAtFirst
  joining := hP.joining
  newText {w} s := hP.plain (Step.makes_compute (.single (.text s w)))
  fail realm _ := hP.plain (touches_fail realm _)
  hostToPrimitive _ := hP.plain (touches_hostToPrimitive _)
  call _ _ _ _ := hP.plain Value.touches_call
  makeThisForNew _ _ := hP.plain Value.touches_makeThisForNew

/-- Coercions are made of elementary changes; they make no link take up or forget a name. -/
theorem Evaluation.discipline_touches (hm : allows.marks) :
    Discipline (E := E) fun _ s w => s.Touches allows w where
  plain h := h.mono World.Changes.of_nothing
  inspect h := h
  andThen h hf := h.andThen hf
  holding := touches_holding
  holdingAtFirst := touches_holdingAtFirst
  joining {_ id _ w} _ h := ⟨.single (.mark hm id true w),
    (h _).releasing .trans fun w' => .single (.mark hm id false w')⟩

/-- What becomes of a result makes no other change. -/
theorem Step.Makes.map {s : Evaluation E α} (h : s.Touches allows w) (f : α → β) :
    Step.Touches allows (s >>= fun a => Step.ready (f a)) w :=
  touches_bind h fun _ _ => touches_ready _

/-! ## References -/

namespace Reference

variable {r : Reference} {realm : RealmId}

theorem touches_get : (r.get realm : Evaluation E Value).Touches allows w :=
  touches_unless Value.touches_member

theorem touches_set {value : Value}
    (h : ∀ id l, r.base = .link id → w.links[id]? = some l →
      w.hasProperty l.native r.name = false →
      (w.realm l.realm).newProperties = .trackCreated → allows.adds id r.name) :
    (r.set value realm : Evaluation E Unit).Touches allows w :=
  touches_unless (Value.touches_put h)

theorem touches_delete (h : ∀ id, r.base = .link id → allows.removes id r.name) :
    (r.delete realm : Evaluation E Bool).Touches allows w :=
  touches_unless (Value.touches_delete h)

end Reference

/-! ## Operations -/

namespace ValueOperation

/-- The property that an operation writes, directly or through a handle. -/
def writing? : ValueOperation → Option (Value × String)
  | .put base name _ => some (base, name)
  | .set r _ => some (r.base, r.name)
  | _ => none

/-- The property that an operation deletes, directly or through a handle. -/
def deleting? : ValueOperation → Option (Value × String)
  | .delete base name => some (base, name)
  | .remove r => some (r.base, r.name)
  | _ => none

/-- No operation writes and deletes. -/
theorem deleting?_of_writing? {op : ValueOperation} {p : Value × String}
    (h : op.writing? = some p) : op.deleting? = none := by
  cases op <;> first | rfl | exact nomatch h

/-- Whether an operation writes a property through a link that the host object does not have, in a
    realm that tracks such properties. -/
def creates (op : ValueOperation) (w : World E) : Bool :=
  match op.writing? with
  | some (.link id, name) => w.links[id]?.any fun l =>
    !w.hasProperty l.native name && (w.realm l.realm).newProperties == .trackCreated
  | _ => false

variable {op : ValueOperation} {id : LinkId} {name : String}

theorem creates_iff {l : Link} (h : op.writing? = some (.link id, name))
    (hl : w.links[id]? = some l) :
    op.creates w = true ↔
      w.hasProperty l.native name = false ∧
        (w.realm l.realm).newProperties = .trackCreated := by
  simp only [creates, h, hl, Option.any_some, Bool.and_eq_true, Bool.not_eq_true', beq_iff_eq]

/-- Whether an operation may convert a value. -/
def converts : ValueOperation → Bool
  | .toPrimitive _ _ | .unary _ _ | .binary _ _ _ => true
  | _ => false

/-- An operation makes a link take up a name at most by creating the property through it, and forget
    one at most by deleting it. It marks arrays at most by converting a value. -/
theorem touches_step (realm : RealmId)
    (ha : ∀ id name, op.writing? = some (.link id, name) → op.creates w = true →
      allows.adds id name)
    (hr : ∀ id name, op.deleting? = some (.link id, name) → allows.removes id name)
    (hm : op.converts = true → allows.marks) :
    (op.step realm : Evaluation E Reply).Touches allows w := by
  cases op with
  | member base name => exact Value.touches_member.map _
  | put base name value =>
    refine Step.Makes.map (Value.touches_put fun id l hb hl hp ht => ?_) fun _ => Reply.result .done
    have hw : (put base name value).writing? = some (.link id, name) := by rw [writing?, hb]
    exact ha id name hw ((creates_iff hw hl).mpr ⟨hp, ht⟩)
  | delete base name =>
    have hdelete : (base.delete name realm : Evaluation E Bool).Touches allows w :=
      Value.touches_delete fun id hb => hr id name (by rw [deleting?, hb])
    exact hdelete.map _
  | refer base name => trivial
  | get r => exact Reference.touches_get.map _
  | set r value =>
    refine Step.Makes.map (Reference.touches_set fun id l hb hl hp ht => ?_) fun _ =>
      Reply.result .done
    have hw : (set r value).writing? = some (.link id, r.name) := by rw [writing?, hb]
    exact ha id r.name hw ((creates_iff hw hl).mpr ⟨hp, ht⟩)
  | remove r =>
    have hdelete : (r.delete realm : Evaluation E Bool).Touches allows w :=
      Reference.touches_delete fun id hb => hr id r.name (by rw [deleting?, hb])
    exact hdelete.map _
  | describe v => trivial
  | call callee receiver args => exact Value.touches_call.map _
  | toPrimitive v hint =>
    have htouches : (v.toPrimitive hint realm : Evaluation E Primitive).Touches allows w :=
      (discipline_touches (hm rfl)).coercing.toPrimitive
    exact htouches.map _
  | unary op v =>
    have htouches : (op.step realm v : Evaluation E Result).Touches allows w :=
      (discipline_touches (hm rfl)).coercing.unary op v
    exact htouches.map _
  | binary op a b =>
    have htouches : (op.step realm a b : Evaluation E Result).Touches allows w :=
      (discipline_touches (hm rfl)).coercing.binaryOperation op a b
    exact htouches.map _

end ValueOperation

end ScriptSandbox
