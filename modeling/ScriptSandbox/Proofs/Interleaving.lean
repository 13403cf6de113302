import ScriptSandbox.Session.Script
import ScriptSandbox.Proofs.Step.Contract
import ScriptSandbox.Proofs.World.Calm

/-
  Interleaved operations.

  A stage is a world together with the operations that were started in it, each with its front: its
  outcome, or the request it waits at. An event starts an operation, answers or abandons a waiting
  one, in any order, or does what a script does without any operation: make objects, arrays and
  strings, hold values and let go of them. The stage also keeps what the script has got hold of:
  what it made, every outcome, and what comes with a call of a script function. A run is a list of
  events, of which those count that a guard admits.

  Two lemmas carry a property over a run. `Stage.run_induction`: what every admitted event keeps, a
  run keeps. `Stage.keeps_advance`: if an event keeps to a contract, then the world evolves as the
  contract says and all fronts still meet it, those of the other activities included.
-/

namespace ScriptSandbox

variable {E : Type} [Embedding E]

/-! ## Operations on values -/

/-- The operations of the sandbox on values. -/
inductive ValueOperation where
  | member (base : Value) (name : String)
  | put (base : Value) (name : String) (value : Value)
  | delete (base : Value) (name : String)
  /-- Take a handle on a property. -/
  | refer (base : Value) (name : String)
  | get (r : Reference)
  | set (r : Reference) (value : Value)
  | remove (r : Reference)
  /-- The text of a value for messages. -/
  | describe (v : Value)
  | call (callee receiver : Value) (args : List Value)
  | toPrimitive (v : Value) (hint : Hint)
  | unary (op : UnaryOperation) (v : Value)
  | binary (op : BinaryOperation) (a b : Value)
deriving DecidableEq

/-- What an operation gives. -/
inductive Reply where
  | result (r : Result)
  | handle (r : Reference)
deriving DecidableEq

namespace ValueOperation

/-- The operation as a step in a realm. -/
def step (realm : RealmId) : ValueOperation → Evaluation E Reply
  | .member base name => do return .result (.value (← base.member name realm))
  | .put base name value => do
    base.put name value realm
    return .result .done
  | .delete base name => do return .result (.flag (← base.delete name realm))
  | .refer base name => do return .handle (← Step.read (·.reference base name))
  | .get r => do return .result (.value (← r.get realm))
  | .set r value => do
    r.set value realm
    return .result .done
  | .remove r => do return .result (.flag (← r.delete realm))
  | .describe v => do return .result (.text (← Step.read (·.debugText v)))
  | .call callee receiver args => do
    return .result (.value (← callee.call receiver args realm))
  | .toPrimitive v hint => do return .result (.value (.primitive (← v.toPrimitive hint realm)))
  | .unary op v => do return .result (← op.step realm v)
  | .binary op a b => do return .result (← op.step realm a b)

/-- The values that an operation works on. -/
def operands : ValueOperation → List Value
  | .member base _ | .delete base _ | .refer base _ => [base]
  | .put base _ value => [base, value]
  | .get r | .remove r => [r.base]
  | .set r value => [r.base, value]
  | .describe v | .toPrimitive v _ | .unary _ v => [v]
  | .call callee receiver args => callee :: receiver :: args
  | .binary _ a b => [a, b]

/-- The value whose property is looked at or changed, directly or through a handle. -/
def base? : ValueOperation → Option Value
  | .member base _ | .put base _ _ | .delete base _ | .refer base _ | .describe base => some base
  | .get r | .set r _ | .remove r => some r.base
  | _ => none

/-- The name that an operation writes or deletes. -/
def writes? : ValueOperation → Option String
  | .put _ name _ | .delete _ name => some name
  | .set r _ | .remove r => some r.name
  | _ => none

end ValueOperation

/-- The values in a reply. -/
def Reply.values : Reply → List Value
  | .result (.value v) => [v]
  | .handle r => [r.base]
  | _ => []

/-- The values that come out at a front: those of an outcome, or what comes with a call. -/
def Step.Front.values : Step.Front (World E) Reply → List Value
  | .finished (.ok r) => r.values
  | .finished (.error c) => [c.value]
  | .waiting (.call callee receiver args) _ _ => callee :: receiver :: args
  | _ => []

/-! ## Stages -/

/-- An operation that was started, and how far it got. -/
structure Activity (E : Type) where
  operation : ValueOperation
  front : Step.Front (World E) Reply

structure Stage (E : Type) where
  world : World E
  /-- The operations so far, in the order of their start. -/
  activities : List (Activity E)
  /-- What the script has got hold of. -/
  known : List Value

/-- What a script does without an operation. -/
inductive Chore where
  | object (o : ScriptObject)
  | array (elements : Array Value)
  | text (s : String)
  /-- Give an object a prototype, or none. -/
  | inherit (id : ObjectId) (prototype : Option Value)
  | hold (things : List Thing)
  | letGo (things : List Thing)
  | collect

/-- The values that go into a chore. -/
def Chore.operands : Chore → List Value
  | .object o => o.properties.entries.map (·.2) ++ o.prototype.toList
  | .array elements => elements.toList
  | .inherit id prototype => .object id :: prototype.toList
  | _ => []

/-- Do a chore; it may make a value. -/
def Chore.perform : Chore → World E → Option Value × World E
  | .object o, w => ((w.newObject o).1, (w.newObject o).2)
  | .array elements, w => ((w.newArray elements).1, (w.newArray elements).2)
  | .text s, w => ((w.newString s).1, (w.newString s).2)
  | .inherit id prototype, w => (none, (w.setPrototype id prototype).2)
  | .hold things, w => (none, w.hold things)
  | .letGo things, w => (none, w.letGo things)
  | .collect, w => (none, w.collect [])

/-- No chore touches a host object or what links remember. -/
theorem Chore.calm_perform (ch : Chore) (w : World E) : w.Calm (ch.perform w).2 := by
  cases ch with
  | object o => exact .of_eq rfl rfl
  | array elements => exact .of_eq rfl rfl
  | text s => exact World.calm_newString s w
  | inherit id prototype =>
    rcases w.setPrototype_eq id prototype with h | h
    · simp only [perform, h]
      exact .refl w
    · simp only [perform, h]
      exact .of_eq rfl rfl
  | hold things => exact World.calm_hold things w
  | letGo things => exact World.calm_letGo things w
  | collect => exact World.calm_collect [] w

inductive Event where
  | start (realm : RealmId) (op : ValueOperation)
  /-- Answer the request of an activity. -/
  | answer (index : Nat) (flow : Flow Value)
  /-- Drop an activity that waits; it counts no more. -/
  | abandon (index : Nat)
  | chore (c : Chore)

namespace Stage

/-- A stage on which nothing was started yet. -/
def idle (w : World E) (known : List Value) : Stage E := ⟨w, [], known⟩

/-- What an event does. -/
def advance (s : Stage E) : Event → Stage E
  | .start realm op =>
    let (front, w) := (op.step realm).settle s.world
    ⟨w, s.activities ++ [⟨op, front⟩], front.values ++ s.known⟩
  | .answer index flow =>
    match s.activities[index]? with
    | some ⟨op, .waiting _ _ resume⟩ =>
      let (front, w) := (resume flow).settle s.world
      ⟨w, s.activities.set index ⟨op, front⟩, front.values ++ s.known⟩
    | _ => s
  | .abandon index =>
    match s.activities[index]? with
    | some ⟨_, .waiting _ release _⟩ =>
      ⟨release s.world, s.activities.eraseIdx index, s.known⟩
    | _ => s
  | .chore c =>
    let (v?, w) := c.perform s.world
    ⟨w, s.activities, v?.toList ++ s.known⟩

/-- The events of a list one after the other, as far as a guard admits them. -/
def run (admits : Stage E → Event → Bool) (s : Stage E) (events : List Event) : Stage E :=
  events.foldl (fun s e => if admits s e then s.advance e else s) s

/-- Only accesses to properties through live links are started. -/
def onLiveLinks (s : Stage E) : Event → Bool
  | .start _ op =>
    match op.base? with
    | some (.link id) => s.world.linkLive id
    | _ => false
  | _ => true

/-- The script has got hold of the value, or can make it without any help. -/
def knows (s : Stage E) (v : Value) : Bool := v.isPrimitive || s.known.contains v

/-- Only values that the script knows are used. -/
def onKnown (s : Stage E) : Event → Bool
  | .start _ op => op.operands.all s.knows
  | .answer _ (.ok v) => s.knows v
  | .answer _ (.error c) => s.knows c.value
  | .abandon _ => true
  | .chore ch => ch.operands.all s.knows

/-! ## What a run keeps -/

omit [Embedding E] in
theorem base?_of_onLiveLinks {s : Stage E} {realm : RealmId} {op : ValueOperation}
    (h : s.onLiveLinks (.start realm op) = true) :
    ∃ id, op.base? = some (.link id) ∧ s.world.linkLive id = true := by
  simp only [onLiveLinks] at h
  split at h
  · next id hb => exact ⟨id, hb, h⟩
  · cases h

/-- What every admitted event keeps, a run keeps. -/
theorem run_induction {admits : Stage E → Event → Bool} {I : Stage E → Prop} {s : Stage E}
    (h : I s) (step : ∀ s e, I s → admits s e = true → I (s.advance e)) (events : List Event) :
    I (s.run admits events) := by
  induction events generalizing s with
  | nil => exact h
  | cons e rest ih =>
    refine ih (s := if admits s e then s.advance e else s) ?_
    split
    · next ha => exact step s e h ha
    · exact h

end Stage

section Contracts

variable {c : Contract (World E)} {post : ValueOperation → Flow Reply → World E → Prop}

/-- Every front of a stage meets the contract, each with the outcomes of its operation. -/
def Stage.Keeps (c : Contract (World E)) (post : ValueOperation → Flow Reply → World E → Prop)
    (s : Stage E) : Prop :=
  ∀ a ∈ s.activities, a.front.Meets c (post a.operation) s.world

/-- The event keeps to the contract in a world. -/
def Event.Meets (c : Contract (World E)) (post : ValueOperation → Flow Reply → World E → Prop)
    (w : World E) : Event → Prop
  | .start realm op => (op.step realm).Meets c (post op) w
  | .answer _ flow => ∀ r, c.answers r flow w
  | .abandon _ => True
  | .chore ch => c.evolves w (ch.perform w).2

omit [Embedding E] in
theorem Stage.keeps_idle (w : World E) (known : List Value) : (idle w known).Keeps c post := by
  intro a ha
  cases ha

omit [Embedding E] in
theorem Stage.Keeps.later {activities : List (Activity E)} {w w' : World E}
    (stable : ∀ op, c.Stable (post op)) (he : c.evolves w w')
    (h : ∀ a ∈ activities, a.front.Meets c (post a.operation) w) :
    ∀ a ∈ activities, a.front.Meets c (post a.operation) w' :=
  fun a ha => (h a ha).later (stable a.operation) he

theorem Stage.keeps_advance {s : Stage E} {e : Event} (stable : ∀ op, c.Stable (post op))
    (hs : s.Keeps c post) (he : e.Meets c post s.world) :
    c.evolves s.world (s.advance e).world ∧ (s.advance e).Keeps c post := by
  cases e with
  | start realm op =>
    obtain ⟨hw, hf⟩ := Step.meets_settle he
    refine ⟨hw, fun a ha => ?_⟩
    rcases List.mem_append.mp ha with ha | ha
    · exact Keeps.later stable hw hs a ha
    · rw [List.mem_singleton.mp ha]
      exact hf
  | answer index flow =>
    simp only [advance]
    split
    · next op r release resume ha =>
      have hm := hs _ (List.mem_of_getElem? ha)
      obtain ⟨hw, hf⟩ := Step.meets_settle (hm.2.2 flow s.world (c.refl _) (he r))
      refine ⟨hw, fun a ha => ?_⟩
      rcases List.mem_or_eq_of_mem_set ha with ha | ha
      · exact Keeps.later stable hw hs a ha
      · rw [ha]
        exact hf
    · exact ⟨c.refl _, hs⟩
  | abandon index =>
    simp only [advance]
    split
    · next op r release resume ha =>
      have hm := hs _ (List.mem_of_getElem? ha)
      have hw := hm.2.1 s.world (c.refl _)
      exact ⟨hw, fun a ha => Keeps.later stable hw hs a (List.mem_of_mem_eraseIdx ha)⟩
    · exact ⟨c.refl _, hs⟩
  | chore ch => exact ⟨he, Keeps.later stable he hs⟩

end Contracts

/-- Where the activities of a stage come from: they were there with the same front, were started
    just now, or went on from a request. -/
theorem Stage.mem_activities_advance {s : Stage E} {e : Event} {a : Activity E}
    (h : a ∈ (s.advance e).activities) :
    a ∈ s.activities ∨
      (∃ realm op, e = .start realm op ∧ a = ⟨op, ((op.step realm).settle s.world).1⟩) ∨
      ∃ r release resume, ⟨a.operation, .waiting r release resume⟩ ∈ s.activities := by
  cases e with
  | start realm op =>
    rcases List.mem_append.mp h with h | h
    · exact .inl h
    · exact .inr (.inl ⟨realm, op, rfl, List.mem_singleton.mp h⟩)
  | answer index flow =>
    simp only [advance] at h
    split at h
    · next op r release resume ha =>
      rcases List.mem_or_eq_of_mem_set h with h | h
      · exact .inl h
      · subst h
        exact .inr (.inr ⟨r, release, resume, List.mem_of_getElem? ha⟩)
    · exact .inl h
  | abandon index =>
    simp only [advance] at h
    split at h
    · exact .inl (List.mem_of_mem_eraseIdx h)
    · exact .inl h
  | chore ch => exact .inl h

/-- What the script gets hold of by an event comes out at a front or is made by a chore. -/
theorem Stage.mem_known_advance {s : Stage E} {e : Event} {v : Value}
    (h : v ∈ (s.advance e).known) :
    v ∈ s.known ∨ (∃ a ∈ (s.advance e).activities, v ∈ a.front.values) ∨
      ∃ ch, e = .chore ch ∧ (ch.perform s.world).1 = some v := by
  cases e with
  | start realm op =>
    rcases List.mem_append.mp h with h | h
    · exact .inr (.inl ⟨_, List.mem_append_right _ (List.mem_singleton_self _), h⟩)
    · exact .inl h
  | answer index flow =>
    simp only [advance] at h ⊢
    split at h
    · next op r release resume ha =>
      rcases List.mem_append.mp h with h | h
      · refine .inr (.inl ⟨_, List.mem_set ?_ _, h⟩)
        exact (List.getElem?_eq_some_iff.mp ha).1
      · exact .inl h
    · exact .inl h
  | abandon index =>
    simp only [advance] at h
    split at h <;> exact .inl h
  | chore ch =>
    rcases List.mem_append.mp h with h | h
    · exact .inr (.inr ⟨ch, rfl, Option.mem_toList.mp h⟩)
    · exact .inl h

end ScriptSandbox
