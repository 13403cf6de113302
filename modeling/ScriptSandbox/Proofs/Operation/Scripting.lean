import ScriptSandbox.Proofs.Interleaving
import ScriptSandbox.Proofs.World.Marks

/-
  What scripts are made of.

  A script performs operations of the sandbox on values that it makes, and asks. Making values
  touches no mark of an array. So whatever the behaviours of a session describe is a script, in
  every frame, and so is every answer of a session (`Session.scripted_respond`).
-/

namespace ScriptSandbox

open World (SameMarks)

/-- An evaluation that is made of operations, from a world on. Between them it looks at the world,
    asks, and changes anything but marks, also when it ends or is abandoned. -/
inductive Scripted {E : Type} [Embedding E] : {α : Type} → Evaluation E α → World E → Prop
  | done {α : Type} (flow : Flow α) (w : World E) : Scripted (.done flow) w
  | fault {α : Type} (e : Fault) (w : World E) : Scripted (.fault e : Evaluation E α) w
  | inspect {α : Type} {next : World E → Evaluation E α} {w : World E} (h : Scripted (next w) w) :
    Scripted (.inspect next) w
  | modify {α : Type} {change : World E → World E} {next : Evaluation E α} {w : World E}
    (hc : SameMarks w (change w)) (h : Scripted next (change w)) : Scripted (.modify change next) w
  | ask {α : Type} (r : Request) {release : World E → World E}
    {resume : Flow Value → Evaluation E α} {w : World E} (hr : ∀ w', SameMarks w' (release w'))
    (h : ∀ answer w', Scripted (resume answer) w') : Scripted (.ask r release resume) w
  | operation (realm : RealmId) (op : ValueOperation) (w : World E) : Scripted (op.step realm) w
  | andThen {α β : Type} {s : Evaluation E α} {f : α → Evaluation E β} {w : World E}
    (h : Scripted s w) (hf : ∀ a w', Scripted (f a) w') : Scripted (s.andThen f) w
  | onFlow {α β : Type} {s : Evaluation E α} {f : Flow α → Evaluation E β} {w : World E}
    (h : Scripted s w) (hf : ∀ flow w', Scripted (f flow) w') : Scripted (s.onFlow f) w
  | releasing {α : Type} {undo : World E → World E} {s : Evaluation E α} {w : World E}
    (hu : ∀ w', SameMarks w' (undo w')) (h : Scripted s w) : Scripted (s.releasing undo) w
  | untilRequest {α : Type} {undo : World E → World E} {s : Evaluation E α} {w : World E}
    (hu : ∀ w', SameMarks w' (undo w')) (h : Scripted s w) : Scripted (s.untilRequest undo) w

/-! ## Rules -/

namespace Scripted

variable {E α β : Type} [Embedding E] {w : World E}

theorem ready (a : α) : Scripted (Step.ready a : Evaluation E α) w := .done _ w

theorem bind {s : Evaluation E α} {f : α → Evaluation E β} (h : Scripted s w)
    (hf : ∀ a w', Scripted (f a) w') : Scripted (s >>= f) w := h.andThen hf

theorem compute {f : World E → α × World E} (h : SameMarks w (f w).2) :
    Scripted (Step.compute f) w := .inspect (.modify h (.done _ _))

theorem read (f : World E → α) : Scripted (Step.read f) w := .inspect (.done _ w)

theorem checkpoint : Scripted (Step.checkpoint : Evaluation E Unit) w :=
  .ask .checkpoint .refl fun _ w' => .done _ w'

theorem holding {things : List Thing} {s : Evaluation E α} (h : ∀ w', Scripted s w') :
    Scripted (Evaluation.holding things s) w :=
  .modify (.of_arrays_eq rfl) (.releasing (fun _ => .of_arrays_eq rfl) (h _))

theorem holdingAtFirst {things : List Thing} {s : Evaluation E α} (h : ∀ w', Scripted s w') :
    Scripted (Evaluation.holdingAtFirst things s) w :=
  .modify (.of_arrays_eq rfl) (.untilRequest (fun _ => .of_arrays_eq rfl) (h _))

/-- An operation whose result is taken out of its reply. -/
theorem of_operation (realm : RealmId) (op : ValueOperation) {s : Evaluation E α} {f : α → Result}
    (h : op.step realm = s.andThen fun a => Step.ready (Reply.result (f a))) :
    Scripted (s.andThen fun a => Step.ready (f a)) w := by
  have hop : Scripted ((op.step realm : Evaluation E Reply).andThen fun reply =>
      match reply with
      | .result r => Step.ready r
      | .handle _ => .fault .endlessArray) w :=
    (operation realm op w).andThen fun reply w' => by
      cases reply with
      | result r => exact ready r
      | handle r => exact .fault _ w'
  rw [h, Step.andThen_assoc] at hop
  exact hop

end Scripted

/-! ## Making values -/

/-- The action touches no mark. -/
def Action.Quiet {α : Type} (a : Action α) : Prop :=
  ∀ w r w', a w = .ok (r, w') → SameMarks w w'

namespace Action.Quiet

variable {α β : Type}

theorem pure (r : α) : Quiet (Pure.pure r : Action α) := by
  rintro w _ _ ⟨⟩
  exact .refl w

theorem bind {a : Action α} {k : α → Action β} (h : a.Quiet) (hk : ∀ r, (k r).Quiet) :
    Quiet (a >>= k) := by
  intro w r w' hr
  change (a w >>= fun (r, w₁) => k r w₁) = _ at hr
  cases ha : a w with
  | error e =>
    rw [ha] at hr
    cases hr
  | ok p =>
    rw [ha] at hr
    exact (h w p.1 p.2 ha).trans (hk p.1 p.2 r w' hr)

theorem compute {f : World Session → α × World Session} (h : ∀ w, SameMarks w (f w).2) :
    Quiet (Action.compute f) := by
  intro w r w' hr
  obtain rfl : (f w).2 = w' := congrArg Prod.snd (Except.ok.inj hr)
  exact h w

theorem read (f : World Session → α) : Quiet (Action.read f) := by
  rintro w _ _ ⟨⟩
  exact .refl w

theorem scripted_step {a : Action α} (h : a.Quiet) (w : World Session) : Scripted a.step w := by
  refine .inspect ?_
  split
  · next r w' ha => exact .modify (h w r w' ha) (.done _ w')
  · next e ha => exact .fault e w

end Action.Quiet

mutual

theorem Literal.quiet_make (f : Frame) : ∀ l : Literal, (l.make f).Quiet
  | .undefined | .null | .boolean _ | .number _ | .receiver | .argument _ => .pure _
  | .string s => .compute fun w => World.sameMarks_newText s w
  | .array items => (Literal.quiet_makeAll f items).bind fun vs =>
    .compute fun w => World.sameMarks_newArray vs.toArray w
  | .slot _ => .read _

theorem Literal.quiet_makeAll (f : Frame) : ∀ ls : List Literal, (Literal.makeAll f ls).Quiet
  | [] => .pure _
  | l :: rest => (Literal.quiet_make f l).bind fun _ =>
    (Literal.quiet_makeAll f rest).bind fun _ => .pure _

end

theorem CompletionSpec.quiet_make (f : Frame) (realm : RealmId) (c : CompletionSpec) :
    (c.make f realm).Quiet := by
  have hchanges {w w' : World Session} (h : World.Changes .nothing w w') : SameMarks w w' :=
    h.sameMarks fun hf => hf
  cases c with
  | ofKind kind value target => exact (value.quiet_make f).bind fun _ => .pure _
  | typeError message => exact .compute fun w => hchanges (World.changes_scriptError realm _ _ w)
  | hostError e => exact .compute fun w => hchanges (World.changes_hostError realm e w)

/-! ## Behaviours -/

theorem Result.sameMarks_toValue (r : Result) (w : World Session) :
    SameMarks w (r.toValue w).2 := by
  cases r with
  | text s => exact World.sameMarks_newText s w
  | _ => exact .refl w

theorem Evaluation.scripted_checkpoints (count : Nat) (w : World Session) :
    Scripted (Evaluation.checkpoints count) w := by
  induction count generalizing w with
  | zero => exact .ready ()
  | succ count ih => exact Scripted.checkpoint.bind fun _ w' => ih w'

theorem UnaryOperation.scripted_step {E : Type} [Embedding E] (op : UnaryOperation)
    (realm : RealmId) (v : Value) (w : World E) : Scripted (op.step realm v) w :=
  Step.andThen_ready (op.step realm v : Evaluation E Result) ▸
    Scripted.of_operation realm (.unary op v) rfl

theorem BinaryOperation.scripted_step {E : Type} [Embedding E] (op : BinaryOperation)
    (realm : RealmId) (a b : Value) (w : World E) : Scripted (op.step realm a b) w :=
  Step.andThen_ready (op.step realm a b : Evaluation E Result) ▸
    Scripted.of_operation realm (.binary op a b) rfl

theorem Literal.scripted (f : Frame) (l : Literal) {w : World Session} :
    Scripted (l.make f).step w := (l.quiet_make f).scripted_step w

open Scripted

mutual

theorem Operation.scripted_step (f : Frame) (realm : RealmId) :
    ∀ (op : Operation) (w : World Session), Scripted (op.step f realm) w
  | .member base name, _ => by
    refine (base.scripted f).bind fun base _ => ?_
    exact of_operation realm (.member base name) rfl
  | .put base name value, _ => by
    refine (base.scripted f).bind fun base _ => ?_
    refine (value.scripted f).bind fun value _ => ?_
    exact of_operation realm (.put base name value) rfl
  | .delete base name, _ => by
    refine (base.scripted f).bind fun base _ => ?_
    exact of_operation realm (.delete base name) rfl
  | .call callee self args, _ => by
    have hargs (w' : World Session) : Scripted (Literal.makeAll f args).step w' :=
      (Literal.quiet_makeAll f args).scripted_step w'
    refine (callee.scripted f).bind fun callee _ => ?_
    refine (self.scripted f).bind fun self _ => ?_
    refine (hargs _).bind fun args _ => ?_
    exact of_operation realm (.call callee self args) rfl
  | .getReference _, _ => by
    refine (Scripted.read _).bind fun r _ => ?_
    exact of_operation realm (.get r) rfl
  | .setReference _ value, _ => by
    refine (Scripted.read _).bind fun r _ => ?_
    refine (value.scripted f).bind fun value _ => ?_
    exact of_operation realm (.set r value) rfl
  | .deleteReference _, _ => by
    refine (Scripted.read _).bind fun r _ => ?_
    exact of_operation realm (.remove r) rfl
  | .toPrimitive v hint, _ => by
    refine (v.scripted f).bind fun v _ => ?_
    exact of_operation realm (.toPrimitive v hint) rfl
  | .unary op v, _ => (v.scripted f).bind fun v w' => op.scripted_step realm v w'
  | .binary op a b, _ => by
    refine (a.scripted f).bind fun a _ => ?_
    exact (b.scripted f).bind fun b w' => op.scripted_step realm a b w'
  | .checkpoints count, w => (Evaluation.scripted_checkpoints count w).bind fun _ _ => .ready _
  | .behave body, w => (Behaviour.scripted_step .outer body w).bind fun _ _ => .ready _

theorem Behaviour.scripted_step (f : Frame) :
    ∀ (b : Behaviour) (w : World Session), Scripted (b.step f) w
  | .returns v, _ => v.scripted f
  | .completes c, _ => by
    refine (Scripted.read _).bind fun realm w' => ?_
    exact ((c.quiet_make f realm).scripted_step w').bind fun _ _ => .done _ _
  | .performs _ op, _ => by
    refine (Scripted.read _).bind fun realm w' => ?_
    refine (Operation.scripted_step f realm op w').bind fun result w'' => ?_
    exact .compute (result.sameMarks_toValue w'')
  | .yields rest, _ => by
    refine Scripted.checkpoint.bind fun _ _ => ?_
    exact .holdingAtFirst fun w' => Behaviour.scripted_step f rest w'
  | .sequence first second, _ => by
    refine (Scripted.holding fun w' => Behaviour.scripted_step f first w').bind fun _ _ => ?_
    exact .holdingAtFirst fun w' => Behaviour.scripted_step f second w'
  | .recovers body handler, _ => by
    refine (Scripted.holding fun w' => Behaviour.scripted_step f body w').onFlow fun flow _ => ?_
    cases flow with
    | ok v => exact .ready v
    | error c =>
      exact .holdingAtFirst fun w' => Behaviour.scripted_step ⟨c.value, f.args⟩ handler w'

end

theorem World.sameMarks_takeBehaviour (callee : Value) (w : World Session) :
    SameMarks w (w.takeBehaviour callee).2 := by
  refine .of_arrays_eq ?_
  unfold takeBehaviour
  cases callee <;> try rfl
  dsimp only
  split <;> rfl

/-- Whatever its script functions do, the answers of a session are scripts. -/
theorem Session.scripted_respond (r : Request) (w : World Session) :
    Scripted (Session.respond r) w := by
  refine .modify (.of_arrays_eq rfl) ?_
  cases r with
  | checkpoint => exact .ready _
  | call callee receiver args =>
    refine (Scripted.compute (World.sameMarks_takeBehaviour callee _)).bind fun behaviour _ => ?_
    exact .holdingAtFirst fun w' => Behaviour.scripted_step ⟨receiver, args⟩ behaviour w'

end ScriptSandbox
