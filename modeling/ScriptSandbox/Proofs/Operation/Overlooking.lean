import ScriptSandbox.Proofs.Interleaving
import ScriptSandbox.Proofs.Step.Interruption
import ScriptSandbox.Proofs.World.Overlooking

/-
  Operations that overlook upkeep.

  An operation reads the heap, the embedding and how a realm treats new properties, and it changes
  the world by computations that overlook upkeep. So in alike worlds it cannot be told apart by its
  requests and its outcome (`overlooks_step`). Reading tells nothing about caches, which is where
  alike worlds differ (`overlooks_look`). The lemmas follow the modules of the operations.
-/

namespace ScriptSandbox

variable {E α β : Type}

namespace Evaluation

/-- The evaluation does not notice upkeep, whenever it happens. -/
abbrev Overlooks (s : Evaluation E α) : Prop := Step.Respects World.Alike s

variable {s : Evaluation E α} {f : α → Evaluation E β}

theorem overlooks_ready (a : α) : Overlooks (E := E) (.ready a) := rfl

theorem overlooks_andThen (h : Overlooks s) (hf : ∀ a, Overlooks (f a)) :
    Overlooks (s.andThen f) :=
  Step.Similar.andThen h hf

theorem overlooks_map (h : Overlooks s) (f : α → β) :
    Overlooks (s >>= fun a => Step.ready (f a)) :=
  overlooks_andThen h fun _ => overlooks_ready _

/-- What is read is not in the realms. -/
theorem overlooks_look {next : World E → Evaluation E α}
    (hn : ∀ w rs, next (w.withRealms rs) = next w) (h : ∀ w, Overlooks (next w)) :
    Overlooks (.inspect next) := by
  refine .inspect ?_ h
  rintro w _ ⟨rs, -⟩
  exact (hn w rs).symm

theorem overlooks_look_bind {f : World E → β} {k : β → Evaluation E α}
    (hf : ∀ w rs, f (World.withRealms w rs) = f w) (hk : ∀ b, Overlooks (k b)) :
    Overlooks (Step.read f >>= k) :=
  overlooks_look (fun w rs => congrArg k (hf w rs)) fun w => hk (f w)

theorem overlooks_compute {f : World E → α × World E} (hf : World.Overlooks f) :
    Overlooks (Step.compute f) := .compute hf

theorem overlooks_holding (things : List Thing) (h : Overlooks s) : Overlooks (holding things s) :=
  ⟨fun _ _ hw => hw.hold things, Step.Similar.releasing h fun _ _ hw => hw.letGo things⟩

theorem overlooks_holdingAtFirst (things : List Thing) (h : Overlooks s) :
    Overlooks (holdingAtFirst things s) :=
  ⟨fun _ _ hw => hw.hold things, Step.Similar.untilRequest h fun _ _ hw => hw.letGo things⟩

theorem overlooks_throwing {make : World E → Completion × World E} (h : World.Overlooks make) :
    Overlooks (throwing (α := α) make) :=
  overlooks_andThen (overlooks_compute h) fun _ => rfl

theorem overlooks_newText (s : String) : Overlooks (E := E) (Step.compute (World.newText s)) :=
  overlooks_compute (World.overlooks_newText s)

theorem overlooks_newString (s : String) :
    Overlooks (E := E) (Step.compute (World.newString s)) :=
  overlooks_compute (World.overlooks_newString s)

theorem overlooks_newObject (o : ScriptObject) :
    Overlooks (E := E) (Step.compute (World.newObject o)) :=
  overlooks_compute (World.overlooks_newObject o)

theorem overlooks_toHost (v : Value) : Overlooks (E := E) (toHost v) := by
  refine overlooks_andThen (overlooks_compute (World.overlooks_toHost v)) fun h? => ?_
  cases h? <;> rfl

theorem overlooks_toHostList (vs : List Value) : Overlooks (E := E) (toHostList vs) := by
  refine overlooks_andThen (overlooks_compute (World.overlooks_toHostList vs)) fun hs? => ?_
  cases hs? <;> rfl

variable [Embedding E]

theorem overlooks_fail (realm : RealmId) (f : Failure) :
    Overlooks (E := E) (α := α) (fail realm f) :=
  overlooks_throwing (World.overlooks_scriptError realm _ _)

theorem overlooks_failIf {c : Prop} [Decidable c] {realm : RealmId} {f : Failure}
    (h : Overlooks s) : Overlooks (if c then fail realm f else s) := by
  split
  · exact overlooks_fail realm f
  · exact h

/-! ## Access to host objects -/

theorem overlooks_hostResult (realm : RealmId)
    {method : World E → Except HostError α × World E} (h : World.Overlooks method) :
    Overlooks (hostResult realm method) := by
  refine overlooks_andThen (overlooks_compute h) fun result => ?_
  cases result with
  | ok a => rfl
  | error e => exact overlooks_throwing (World.overlooks_hostError realm e)

variable {wrap : Wrapper E}

theorem overlooks_enter (hw : ∀ realm h, World.Overlooks (wrap realm h)) (realm : RealmId)
    (h : HostValue) : Overlooks (enter wrap realm h) :=
  overlooks_andThen (.write fun _ _ ha => ha.collect h.things) fun _ =>
    overlooks_compute (hw realm h)

theorem overlooks_hostGet (hw : ∀ realm h, World.Overlooks (wrap realm h)) (realm : RealmId)
    (n : Native) (name : String) : Overlooks (hostGet wrap realm n name) :=
  overlooks_andThen .checkpoint fun _ => overlooks_holding _ <|
    overlooks_andThen (overlooks_hostResult realm (World.overlooks_getProperty n name)) fun h =>
      overlooks_enter hw realm h

theorem overlooks_hostSet (realm : RealmId) (n : Native) (name : String) (value : HostValue) :
    Overlooks (E := E) (hostSet realm n name value) :=
  overlooks_andThen .checkpoint fun _ => overlooks_holding _ <|
    overlooks_hostResult realm (World.overlooks_setProperty n name value)

theorem overlooks_hostDelete (realm : RealmId) (n : Native) (name : String) :
    Overlooks (E := E) (hostDelete realm n name) :=
  overlooks_andThen .checkpoint fun _ => overlooks_holding _ <|
    overlooks_hostResult realm (World.overlooks_deleteProperty n name)

theorem overlooks_hostCall (hw : ∀ realm h, World.Overlooks (wrap realm h)) (realm : RealmId)
    (n : Native) (receiver : Value) (args : List Value) :
    Overlooks (hostCall wrap realm n receiver args) := by
  refine overlooks_look_bind (fun _ _ => by cases n <;> rfl) fun callable => ?_
  split
  · refine overlooks_andThen (overlooks_toHost receiver) fun receiver => ?_
    refine overlooks_andThen (overlooks_toHostList args) fun args => ?_
    exact overlooks_andThen .checkpoint fun _ => overlooks_holding _ <|
      overlooks_andThen (overlooks_hostResult realm (World.overlooks_callNative n receiver args))
        fun h => overlooks_enter hw realm h
  · exact overlooks_look_bind (fun w rs => w.display_withRealms rs n) fun _ =>
      overlooks_fail realm _

theorem overlooks_hostToPrimitive (n : Native) : Overlooks (E := E) (hostToPrimitive n) :=
  overlooks_andThen .checkpoint fun _ => overlooks_compute (World.overlooks_hostPrimitive n)

end Evaluation

open Evaluation

/-! ## What links ask -/

namespace World.Alike

variable {w w' : World E} (ha : w.Alike w')

include ha

theorem createdByScript_eq (l : Link) (name : String) :
    w.createdByScript l name = w'.createdByScript l name := by
  rw [createdByScript, createdByScript, (ha.realm l.realm).newProperties]

variable [Embedding E]

theorem policy?_eq (n : Native) : w.policy? n = w'.policy? n := by
  obtain ⟨rs, -⟩ := ha
  cases n <;> rfl

theorem hasProperty_eq (n : Native) (name : String) :
    w.hasProperty n name = w'.hasProperty n name := by
  obtain ⟨rs, -⟩ := ha
  cases n <;> rfl

theorem allowsRead_eq (l : Link) (name : String) : w.allowsRead l name = w'.allowsRead l name := by
  rw [allowsRead, allowsRead, ha.policy?_eq, ha.createdByScript_eq]

theorem allowsWrite_eq (l : Link) (name : String) :
    w.allowsWrite l name = w'.allowsWrite l name := by
  rw [allowsWrite, allowsWrite, ha.policy?_eq, ha.createdByScript_eq]

theorem reference_eq (base : Value) (name : String) :
    w.reference base name = w'.reference base name := by
  have hlinks : w.links = w'.links := by
    obtain ⟨rs, -⟩ := ha
    rfl
  have haccess (l : Link) : w.linkAccess l name = w'.linkAccess l name := by
    simp only [linkAccess, ha.hasProperty_eq, ha.allowsRead_eq, ha.allowsWrite_eq]
  simp only [reference, hlinks, haccess]

end World.Alike

/-! ## Links -/

variable [Embedding E]

namespace Link

theorem overlooks_member (l : Link) (name : String) : Overlooks (E := E) (l.member name) := by
  refine .read_bind (fun _ _ h => h.hasProperty_eq l.native name) fun has => ?_
  split
  · rfl
  · exact .read_bind (fun _ _ h => h.allowsRead_eq l name) fun _ =>
      overlooks_failIf (overlooks_hostGet World.overlooks_link l.realm l.native name)

theorem overlooks_put (id : LinkId) (l : Link) (name : String) (value : Value) :
    Overlooks (E := E) (l.put id name value) := by
  refine .read_bind (fun _ _ h => h.hasProperty_eq l.native name) fun has => ?_
  refine .read_bind (fun _ _ h => h.allowsWrite_eq l name) fun allowed => overlooks_failIf ?_
  refine overlooks_andThen (overlooks_toHost value) fun value => ?_
  refine .read_bind (fun _ _ h => ?_) fun tracks => ?_
  · rw [(h.realm l.realm).newProperties]
  · refine overlooks_andThen (overlooks_hostSet l.realm l.native name value) fun _ => ?_
    split
    · exact .write fun _ _ h => h.modifyCreated id (·.insert name)
    · rfl

theorem overlooks_delete (id : LinkId) (l : Link) (name : String) :
    Overlooks (E := E) (l.delete id name) := by
  refine .read_bind (fun _ _ h => h.hasProperty_eq l.native name) fun has => ?_
  split
  · rfl
  · refine .read_bind (fun _ _ h => h.allowsWrite_eq l name) fun allowed =>
      overlooks_failIf ?_
    refine overlooks_andThen (overlooks_hostDelete l.realm l.native name) fun deleted => ?_
    split
    · exact overlooks_map (.write fun _ _ h => h.modifyCreated id (·.erase name)) _
    · rfl

end Link


/-! ## Members and calls -/

namespace Value

variable {realm : RealmId}

theorem overlooks_refusal (v : Value) (realm : RealmId) (f : String → Failure) :
    Overlooks (E := E) (α := α) (Step.read (·.debugText v) >>= fun text => fail realm (f text)) :=
  overlooks_look_bind (fun w rs => w.debugText_withRealms rs v) fun _ => overlooks_fail realm _

theorem overlooks_member (v : Value) (name : String) (realm : RealmId) :
    Overlooks (E := E) (v.member name realm) := by
  have refuse (v : Value) : Overlooks (E := E) (α := Value) (v.noMembers name realm) :=
    overlooks_refusal v realm (.noMembers name)
  rcases v with ⟨_ | _ | _ | _ | s⟩ | id | id | id | id <;> simp only [member]
  case primitive.undefined => exact refuse _
  case primitive.null => exact refuse _
  case primitive.boolean => exact refuse _
  case primitive.number => exact refuse _
  case primitive.string =>
    split
    · rfl
    · exact overlooks_newString _
    · rfl
  case object =>
    refine overlooks_look (fun w rs => ?_) fun _ => rfl
    exact congrArg (fun v? => Step.ready (v?.getD .undefined)) (w.lookup?_withRealms id name rs)
  case array => exact overlooks_look (fun _ _ => rfl) fun _ => rfl
  case bridge =>
    refine overlooks_look (fun _ _ => rfl) fun w => ?_
    split
    · next b _ =>
      refine .read_bind (fun _ _ h => h.hasProperty_eq b.native name) fun has => ?_
      split
      · exact overlooks_hostGet World.overlooks_fromHost b.realm b.native name
      · rfl
    · rfl
  case link =>
    refine overlooks_look (fun _ _ => rfl) fun w => ?_
    split
    · exact Link.overlooks_member _ name
    · rfl

theorem overlooks_put (v : Value) (name : String) (value : Value) (realm : RealmId) :
    Overlooks (E := E) (v.put name value realm) := by
  rcases v with p | id | id | id | id
  case primitive => exact overlooks_refusal _ realm (.noMembers name)
  case object => exact .write fun _ _ h => h.modifyObject id _
  case array => exact .write fun _ _ h => h.modifyArray id _
  case bridge =>
    refine overlooks_look (fun _ _ => rfl) fun w => ?_
    split
    · next b _ =>
      exact overlooks_andThen (overlooks_toHost value) fun value =>
        overlooks_hostSet b.realm b.native name value
    · rfl
  case link =>
    refine overlooks_look (fun _ _ => rfl) fun w => ?_
    split
    · exact Link.overlooks_put id _ name value
    · rfl

theorem overlooks_delete (v : Value) (name : String) (realm : RealmId) :
    Overlooks (E := E) (v.delete name realm) := by
  rcases v with p | id | id | id | id
  case primitive => exact overlooks_refusal _ realm (.noMembers name)
  case object => exact ⟨fun _ _ h => h.modifyObject id _, rfl⟩
  case array => exact ⟨fun _ _ h => h.modifyArray id _, rfl⟩
  case bridge =>
    refine overlooks_look (fun _ _ => rfl) fun w => ?_
    split
    · next b _ => exact overlooks_hostDelete b.realm b.native name
    · rfl
  case link =>
    refine overlooks_look (fun _ _ => rfl) fun w => ?_
    split
    · exact Link.overlooks_delete id _ name
    · rfl

theorem overlooks_call (v receiver : Value) (args : List Value) (realm : RealmId) :
    Overlooks (E := E) (v.call receiver args realm) := by
  have refuse (v : Value) := overlooks_refusal (E := E) (α := Value) v realm .notCallable
  rcases v with p | id | id | id | id
  case primitive => exact refuse _
  case array => exact refuse _
  case object =>
    refine overlooks_look (fun _ _ => rfl) fun w => ?_
    split
    · exact .request _
    · exact refuse _
  case bridge =>
    refine overlooks_look (fun _ _ => rfl) fun w => ?_
    split
    · next b _ => exact overlooks_hostCall World.overlooks_fromHost b.realm b.native receiver args
    · exact refuse _
  case link =>
    refine overlooks_look (fun _ _ => rfl) fun w => ?_
    split
    · next l _ => exact overlooks_hostCall World.overlooks_link l.realm l.native receiver args
    · exact refuse _

theorem overlooks_makeThisForNew (v : Value) (realm : RealmId) :
    Overlooks (E := E) (v.makeThisForNew realm) := by
  have refuse (v : Value) := overlooks_refusal (E := E) (α := Value) v realm .notConstructor
  rcases v with p | id | id | id | id
  case primitive => exact refuse _
  case array => exact refuse _
  case object =>
    refine overlooks_look (fun w rs => ?_) fun w => ?_
    · simp only [World.lookup?_withRealms]
      rfl
    · split
      · exact overlooks_newObject _
      · exact refuse _
  case bridge =>
    refine overlooks_look (fun _ _ => rfl) fun w => ?_
    split
    · exact overlooks_newObject _
    · exact refuse _
  case link =>
    refine overlooks_look (fun _ _ => rfl) fun w => ?_
    split
    · exact overlooks_newObject _
    · exact refuse _

end Value

/-! ## Coercions -/

namespace Evaluation

variable {joinArray : ArrayId → Evaluation E Primitive} {realm : RealmId}

theorem overlooks_intrinsicText (hj : ∀ id, Overlooks (joinArray id)) (v : Value) :
    Overlooks (intrinsicText joinArray v) := by
  cases v with
  | array id => exact hj id
  | _ => exact overlooks_look (fun _ _ => rfl) fun _ =>
      overlooks_andThen (overlooks_newText _) fun _ => rfl

theorem overlooks_convertBy (hj : ∀ id, Overlooks (joinArray id)) (v : Value)
    (methods : List ConversionMethod) : Overlooks (convertBy joinArray realm v methods) := by
  induction methods with
  | nil => exact overlooks_fail realm _
  | cons m rest ih =>
    refine overlooks_look (fun w rs => ?_) fun w => ?_
    · have hmethod : (w.withRealms rs).conversionMethod? v m = w.conversionMethod? v m := by
        cases v with
        | object id => exact congrArg (Option.filter w.isCallable) (w.lookup?_withRealms id _ rs)
        | _ => rfl
      rw [hmethod]
    · split
      · refine overlooks_andThen (overlooks_holding _ (Value.overlooks_call _ v [] realm)) ?_
        intro result
        split
        · rfl
        · exact overlooks_holdingAtFirst _ ih
      · cases m with
        | toString => exact overlooks_intrinsicText hj v
        | valueOf => exact ih

omit [Embedding E] in
theorem overlooks_elementTexts {toText : Value → Evaluation E String}
    (ht : ∀ v, Overlooks (toText v)) (vs : List Value) (done : List String) :
    Overlooks (elementTexts toText vs done) := by
  induction vs generalizing done with
  | nil => rfl
  | cons v rest ih =>
    cases v with
    | primitive p => exact ih _
    | _ => exact overlooks_andThen (overlooks_holding _ (ht _)) fun _ => ih _

omit [Embedding E] in
theorem overlooks_join {toText : Value → Evaluation E String} (ht : ∀ v, Overlooks (toText v))
    (id : ArrayId) : Overlooks (join toText id) := by
  refine overlooks_look (fun _ _ => rfl) fun w => ?_
  dsimp only
  split
  · rfl
  · have hmark (joining : Bool) :
        Step.Relates World.Alike (World.markJoining (E := E) id joining)
          (World.markJoining id joining) := fun _ _ h => h.modifyArray id _
    refine ⟨hmark true, Step.Similar.releasing ?_ (hmark false)⟩
    exact overlooks_andThen (overlooks_holding _ (overlooks_elementTexts ht _ [])) fun texts =>
      overlooks_andThen (overlooks_newText _) fun _ => rfl

theorem overlooks_toPrimitiveBy (hj : ∀ id, Overlooks (joinArray id)) (hint : Hint) (v : Value) :
    Overlooks (toPrimitiveBy joinArray realm hint v) := by
  cases v with
  | primitive p => rfl
  | object id => exact overlooks_convertBy hj _ _
  | array id => exact overlooks_convertBy hj _ _
  | bridge id =>
    refine overlooks_look (fun _ _ => rfl) fun w => ?_
    split
    · exact overlooks_hostToPrimitive _
    · rfl
  | link id =>
    refine overlooks_look (fun _ _ => rfl) fun w => ?_
    split
    · exact overlooks_hostToPrimitive _
    · rfl

theorem overlooks_joinWithin (realm : RealmId) (depth : Nat) (id : ArrayId) :
    Overlooks (E := E) (joinWithin realm depth id) := by
  induction depth generalizing id with
  | zero => rfl
  | succ depth ih =>
    have htext (v : Value) : Overlooks (E := E)
        (toPrimitiveBy (joinWithin realm depth) realm .string v >>= fun p => Step.ready p.text) :=
      overlooks_map (overlooks_toPrimitiveBy ih .string v) Primitive.text
    exact overlooks_join htext id

end Evaluation

namespace Value

variable {a b v : Value} {realm : RealmId}

theorem overlooks_toPrimitive (v : Value) (hint : Hint) (realm : RealmId) :
    Overlooks (E := E) (v.toPrimitive hint realm) :=
  overlooks_look (fun _ _ => rfl) fun _ =>
    overlooks_toPrimitiveBy (overlooks_joinWithin realm _) hint v

theorem overlooks_toNumber (v : Value) (realm : RealmId) :
    Overlooks (E := E) (v.toNumber realm) :=
  overlooks_andThen (overlooks_toPrimitive v .number realm) fun _ => .orFault _

/-! ## Operators -/

theorem overlooks_binary (op : NumericOperator) (a b : Value) (realm : RealmId) :
    Overlooks (E := E) (a.binary op b realm) :=
  overlooks_andThen (overlooks_holding _ (overlooks_toNumber a realm)) fun _ =>
    overlooks_map (overlooks_toNumber b realm) _

omit [Embedding E] in
theorem overlooks_addPrimitives (p q : Primitive) :
    Overlooks (E := E) (addPrimitives p q) := by
  unfold addPrimitives
  split
  · exact overlooks_newString _
  · exact overlooks_andThen (.orFault _) fun _ => overlooks_map (.orFault _) _

theorem overlooks_add (a b : Value) (realm : RealmId) : Overlooks (E := E) (a.add b realm) :=
  overlooks_andThen (overlooks_holding _ (overlooks_toPrimitive a .default realm)) fun _ =>
    overlooks_andThen (overlooks_toPrimitive b .default realm) fun _ => overlooks_addPrimitives _ _

theorem overlooks_looseEq (a b : Value) (realm : RealmId) :
    Overlooks (E := E) (a.looseEq b realm) := by
  unfold looseEq
  split
  · exact .orFault _
  · split
    · rfl
    · exact overlooks_andThen (overlooks_toPrimitive _ .default realm) fun _ => .orFault _
  · split
    · rfl
    · exact overlooks_andThen (overlooks_toPrimitive _ .default realm) fun _ => .orFault _
  · rfl

end Value

theorem UnaryOperation.overlooks_step (op : UnaryOperation) (realm : RealmId) (v : Value) :
    Overlooks (E := E) (op.step realm v) := by
  have number := v.overlooks_toNumber (E := E) realm
  have converted {γ : Type} (f : Binary64 → γ) :
      Overlooks (v.toNumber realm >>= fun n => (Step.ready (f n) : Evaluation E γ)) :=
    overlooks_map number f
  cases op with
  | toNumber => exact overlooks_map number _
  | toNumberValue => exact overlooks_map number _
  | toText =>
    exact overlooks_map (overlooks_map (v.overlooks_toPrimitive .string realm) Primitive.text) _
  | toBoolean => rfl
  | toInt32 => exact overlooks_map (converted Binary64.toInt32) _
  | toUInt32 => exact overlooks_map (converted Binary64.toUInt32) _
  | toInteger => exact overlooks_map (converted Binary64.toInteger) _
  | negate => exact overlooks_map (converted fun n => Value.number n.neg) _
  | unaryPlus => exact overlooks_map (converted Value.number) _
  | bitNot => exact overlooks_map (converted fun n => Value.number n.bitNot) _
  | not => exact overlooks_map (overlooks_ready _) _
  | typeOf =>
    refine overlooks_map (overlooks_look (fun w rs => ?_) fun _ => overlooks_newString _) _
    cases v <;> rfl
  | makeThisForNew => exact overlooks_map (v.overlooks_makeThisForNew realm) _

theorem BinaryOperation.overlooks_step (op : BinaryOperation) (realm : RealmId) (a b : Value) :
    Overlooks (E := E) (op.step realm a b) := by
  cases op with
  | numeric op => exact overlooks_map (Value.overlooks_binary op a b realm) _
  | add => exact overlooks_map (Value.overlooks_add a b realm) _
  | strictEq => rfl
  | strictNe => rfl
  | looseEq => exact overlooks_map (Value.overlooks_looseEq a b realm) _
  | looseNe => exact overlooks_map (overlooks_map (Value.overlooks_looseEq a b realm) (!·)) _

/-- In alike worlds an operation makes the same requests and comes to the same outcome, however its
    requests are answered, and the worlds stay alike. -/
theorem ValueOperation.overlooks_step (op : ValueOperation) (realm : RealmId) :
    Overlooks (E := E) (op.step realm) := by
  cases op with
  | member base name => exact overlooks_map (base.overlooks_member name realm) _
  | put base name value =>
    exact overlooks_map (base.overlooks_put name value realm) fun _ => Reply.result .done
  | delete base name => exact overlooks_map (base.overlooks_delete name realm) _
  | refer base name => exact .read_bind (fun _ _ h => h.reference_eq base name) fun _ => rfl
  | get r => exact overlooks_map (overlooks_failIf (r.base.overlooks_member r.name realm)) _
  | set r value =>
    exact overlooks_map (overlooks_failIf (r.base.overlooks_put r.name value realm))
      fun _ => Reply.result .done
  | remove r => exact overlooks_map (overlooks_failIf (r.base.overlooks_delete r.name realm)) _
  | describe v =>
    exact overlooks_look_bind (fun w rs => w.debugText_withRealms rs v) fun _ => rfl
  | call callee receiver args => exact overlooks_map (callee.overlooks_call receiver args realm) _
  | toPrimitive v hint => exact overlooks_map (v.overlooks_toPrimitive hint realm) _
  | unary op v => exact overlooks_map (op.overlooks_step realm v) _
  | binary op a b => exact overlooks_map (op.overlooks_step realm a b) _

end ScriptSandbox
