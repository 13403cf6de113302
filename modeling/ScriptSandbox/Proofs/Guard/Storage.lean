import ScriptSandbox.Proofs.Guard.Integrity
import ScriptSandbox.Proofs.Step.Suspension
import ScriptSandbox.Proofs.World.Still

/-
  Hosts that store what they accept.

  A write that such a host accepts makes the property exist, and a delete that it reports as done
  has removed the property; what it refuses it does not do. `Ending` says what becomes of an
  operation at its checkpoint: it is answered or abandoned, after some chores. Either way the
  operation comes to a result, or the host object and what the link remembers are as before
  (`Ends`). The last part follows the operations on a link from its check to what it remembers in
  the end: `Turned` says what an operation did to the host object and to the created names.
-/

namespace ScriptSandbox

variable {E α β : Type} [Embedding E] {host : HostId}

/-- A host object with a map of properties that takes in every write that it accepts and gives up
    every property that it deletes, and else changes nothing. -/
structure StoreHost (E : Type) [Embedding E] (host : HostId) extends MapHost E host where
  set_accepted : ∀ {e} name value, valid e → (Embedding.set host name value e).1.isOk = true →
    (properties (Embedding.set host name value e).2 name).isSome = true
  set_rejected : ∀ {e} name value, valid e → (Embedding.set host name value e).1.isOk = false →
    properties (Embedding.set host name value e).2 name = properties e name
  delete_done : ∀ {e} name, valid e → (Embedding.delete host name e).1 = .ok true →
    properties (Embedding.delete host name e).2 name = none
  delete_refused : ∀ {e} name, valid e → (Embedding.delete host name e).1 ≠ .ok true →
    properties (Embedding.delete host name e).2 name = properties e name

/-! ## What is left alone -/

omit [Embedding E] in
theorem World.of_hosted_eq {f : E → α × E} {w w' : World E} {a : α} (h : w.hosted f = (a, w')) :
    (f w.embedding).1 = a ∧ (w.hosted f).2 = w' :=
  ⟨congrArg Prod.fst h, congrArg Prod.snd h⟩

namespace MapHost

/-- From one world to a later one the host object keeps the given properties, the link what it
    remembers, and every realm its way with new properties. -/
structure Spares (m : MapHost E host) (link : LinkId) (names : String → Prop) (w w' : World E) :
    Prop where
  valid : m.valid w.embedding → m.valid w'.embedding
  same : m.valid w.embedding → ∀ name, names name →
    m.properties w'.embedding name = m.properties w.embedding name
  remembers : ∀ {l : Link}, w.links[link]? = some l →
    ∃ live, w'.links[link]? = some { l with live := live }
  conduct : w.SameConduct w'

/-- The host object keeps all its properties, and the link what it remembers. -/
abbrev Leaves (m : MapHost E host) (link : LinkId) (w w' : World E) : Prop :=
  m.Spares link (fun _ => True) w w'

variable {m : MapHost E host} {link : LinkId} {names names' : String → Prop} {w w' : World E}

namespace Spares

theorem trans {w'' : World E} (h : m.Spares link names w w') (h' : m.Spares link names w' w'') :
    m.Spares link names w w'' where
  valid hv := h'.valid (h.valid hv)
  same hv name hname := (h'.same (h.valid hv) name hname).trans (h.same hv name hname)
  remembers hl := by
    obtain ⟨live, hl'⟩ := h.remembers hl
    obtain ⟨live', hl''⟩ := h'.remembers hl'
    exact ⟨live', hl''⟩
  conduct := h.conduct.trans h'.conduct

theorem mono (h : m.Spares link names w w') (hn : ∀ name, names' name → names name) :
    m.Spares link names' w w' :=
  { h with same := fun hv name hname => h.same hv name (hn name hname) }

theorem of_leaves (h : m.Leaves link w w') : m.Spares link names w w' := h.mono fun _ _ => trivial

end Spares

/-- If the one property that may change has not changed, nothing has. -/
theorem Spares.leaves {name : String} (h : m.Spares link (fun other => name ≠ other) w w')
    (hname : m.valid w.embedding →
      m.properties w'.embedding name = m.properties w.embedding name) : m.Leaves link w w' :=
  { h with
    same := fun hv other _ => by
      by_cases hother : name = other
      · exact hother ▸ hname hv
      · exact h.same hv other hother }

theorem leaves_of_still (h : w.Still w') : m.Leaves link w w' where
  valid hv := by
    rw [h.calm.embedding]
    exact hv
  same _ name _ := by rw [h.calm.embedding]
  remembers hl := by
    obtain ⟨live, hl', -⟩ := h.calm.kept hl
    exact ⟨live, hl'⟩
  conduct := h.conduct

theorem leaves_refl (w : World E) : m.Leaves link w w := leaves_of_still (.refl w)

theorem Spares.still {w'' : World E} (h : m.Spares link names w w') (h' : w'.Still w'') :
    m.Spares link names w w'' :=
  h.trans (.of_leaves (leaves_of_still h'))

/-- A method of the embedding that keeps the properties. -/
theorem spares_hosted {f : E → α × E}
    (hf : m.valid w.embedding → m.valid (f w.embedding).2 ∧
      ∀ name, names name → m.properties (f w.embedding).2 name = m.properties w.embedding name) :
    m.Spares link names w (w.hosted f).2 where
  valid hv := (hf hv).1
  same hv := (hf hv).2
  remembers {l} hl := ⟨l.live, hl⟩
  conduct _ := rfl

theorem leaves_getProperty (n : Native) (name : String) (w : World E) :
    m.Leaves link w (w.getProperty n name).2 := by
  cases n with
  | error serial errorName message =>
    obtain ⟨v, -, hv⟩ := World.getProperty_error (E := E) serial errorName message name
    rw [hv]
    exact leaves_refl w
  | bookmark serial target => exact leaves_refl w
  | hosted id =>
    refine spares_hosted fun hv => ?_
    obtain ⟨hvalid, hsame⟩ := m.get id name hv
    exact ⟨hvalid, fun other _ => congrFun hsame other⟩

end MapHost

namespace StoreHost

variable {m : StoreHost E host} {link : LinkId} {w w' : World E} {name : String}

theorem spares_setProperty (value : HostValue) (w : World E) :
    m.Spares link (fun other => name ≠ other) w (w.setProperty (.hosted host) name value).2 :=
  MapHost.spares_hosted fun hv => by
    obtain ⟨hvalid, hsame⟩ := m.set host name value hv
    exact ⟨hvalid, fun other hother => hsame other (.inr hother)⟩

theorem spares_deleteProperty (w : World E) :
    m.Spares link (fun other => name ≠ other) w (w.deleteProperty (.hosted host) name).2 :=
  MapHost.spares_hosted fun hv => by
    obtain ⟨hvalid, hsame⟩ := m.delete host name hv
    exact ⟨hvalid, fun other hother => hsame other (.inr hother)⟩

theorem setProperty_accepted {value : HostValue} (hv : m.valid w.embedding)
    (h : w.setProperty (.hosted host) name value = (.ok (), w')) :
    (m.properties w'.embedding name).isSome = true := by
  obtain ⟨hok, rfl⟩ := World.of_hosted_eq h
  exact m.set_accepted name value hv (congrArg Except.isOk hok)

theorem setProperty_rejected {value : HostValue} {e : HostError}
    (h : w.setProperty (.hosted host) name value = (.error e, w')) : m.Leaves link w w' := by
  have hspares : m.Spares link (fun other => name ≠ other) w _ := m.spares_setProperty value w
  obtain ⟨herror, rfl⟩ := World.of_hosted_eq h
  exact hspares.leaves fun hv => m.set_rejected name value hv (congrArg Except.isOk herror)

theorem deleteProperty_done (hv : m.valid w.embedding)
    (h : w.deleteProperty (.hosted host) name = (.ok true, w')) :
    m.properties w'.embedding name = none := by
  obtain ⟨hok, rfl⟩ := World.of_hosted_eq h
  exact m.delete_done name hv hok

theorem deleteProperty_refused {result : Except HostError Bool} (hresult : result ≠ .ok true)
    (h : w.deleteProperty (.hosted host) name = (result, w')) : m.Leaves link w w' := by
  have hspares : m.Spares link (fun other => name ≠ other) w _ := m.spares_deleteProperty w
  obtain ⟨rfl, rfl⟩ := World.of_hosted_eq h
  exact hspares.leaves fun hv => m.delete_refused name hv hresult

end StoreHost

/-! ## Endings -/

/-- Chores one after the other. -/
def Chore.performAll (chores : List Chore) (w : World E) : World E :=
  chores.foldl (fun w c => (c.perform w).2) w

theorem Chore.still_performAll (chores : List Chore) (w : World E) :
    w.Still (performAll chores w) := by
  induction chores generalizing w with
  | nil => exact .refl w
  | cons c rest ih => exact (c.still_perform w).trans (ih (c.perform w).2)

/-- What becomes of an operation that waits, after some chores. -/
inductive Ending where
  | answered (meanwhile : List Chore) (answer : Flow Value)
  | abandoned (meanwhile : List Chore)

namespace Ending

/-- The outcome of a step that gets no answer, if it has one, and the world then. -/
def unanswered : Step.Front (World E) α × World E → Option (Flow α) × World E
  | (.finished flow, w) => (some flow, w)
  | (.faulted _, w) => (none, w)
  | (.waiting _ release _, w) => (none, release w)

/-- The outcome of a step that has come to its front, if it gets one, and the world then. -/
def conclude (ending : Ending) (settled : Step.Front (World E) α × World E) :
    Option (Flow α) × World E :=
  match settled, ending with
  | (.waiting _ _ resume, w), .answered chores answer =>
    unanswered ((resume answer).settle (Chore.performAll chores w))
  | (.waiting r release resume, w), .abandoned chores =>
    unanswered (.waiting r release resume, Chore.performAll chores w)
  | settled, _ => unanswered settled

theorem conclude_map (ending : Ending) (s : Evaluation E α) (g : α → β) (w : World E) :
    ending.conclude ((s >>= fun x => pure (g x)).settle w) =
      ((ending.conclude (s.settle w)).1.map (Except.map g), (ending.conclude (s.settle w)).2) := by
  rw [Step.bind_eq_andThen, Step.settle_andThen]
  generalize s.settle w = settled
  obtain ⟨front, w₁⟩ := settled
  cases front with
  | finished flow => cases flow <;> rfl
  | faulted e => rfl
  | waiting r release resume =>
    cases ending with
    | abandoned chores => rfl
    | answered chores answer =>
      simp only [conclude, unanswered, Step.settle_andThen]
      generalize (resume answer).settle _ = settled
      obtain ⟨front, w₂⟩ := settled
      cases front with
      | finished flow => cases flow <;> rfl
      | faulted e => rfl
      | waiting r release resume => rfl

end Ending

/-! ## Ends -/

namespace MapHost

/-- A result is as it should be, and without a result the host object and the link are as in the
    first world. -/
def Settled (m : MapHost E host) (link : LinkId) (w₀ : World E) (P : α → World E → Prop) :
    Option (Flow α) × World E → Prop
  | (some (.ok x), w) => P x w
  | (_, w) => m.Leaves link w₀ w

/-- With the ending the step comes to a good result or leaves everything alone. -/
def Ends (m : MapHost E host) (link : LinkId) (ending : Ending) (w₀ : World E)
    (P : α → World E → Prop) (s : Evaluation E α) (w : World E) : Prop :=
  m.Settled link w₀ P (ending.conclude (s.settle w))

/-- So does the step without any ending: it does not ask. -/
def Lands (m : MapHost E host) (link : LinkId) (w₀ : World E) (P : α → World E → Prop)
    (s : Evaluation E α) (w : World E) : Prop :=
  ∃ flow w', s.settle w = (.finished flow, w') ∧ m.Settled link w₀ P (some flow, w')

variable {m : MapHost E host} {link : LinkId} {ending : Ending} {w₀ w : World E}
  {P : α → World E → Prop} {Q : β → World E → Prop}

theorem Settled.cases {concluded : Option (Flow α) × World E}
    (h : m.Settled link w₀ P concluded) :
    (∃ x, concluded.1 = some (.ok x) ∧ P x concluded.2) ∨
      (∀ x, concluded.1 ≠ some (.ok x)) ∧ m.Leaves link w₀ concluded.2 := by
  obtain ⟨_ | c | x, w⟩ := concluded
  · exact .inr ⟨by simp, h⟩
  · exact .inr ⟨by simp, h⟩
  · exact .inl ⟨x, rfl, h⟩

theorem ends_inspect {next : World E → Evaluation E α} :
    m.Ends link ending w₀ P (.inspect next) w ↔ m.Ends link ending w₀ P (next w) w := Iff.rfl

theorem ends_fail (h : m.Leaves link w₀ w) (realm : RealmId) (f : Failure) :
    m.Ends link ending w₀ P (Evaluation.fail realm f) w :=
  h.still (World.still_scriptError realm _ _ w)

theorem ends_unless {c : Prop} [Decidable c] {s : Evaluation E α} {realm : RealmId} {f : Failure}
    (h : m.Leaves link w₀ w) (hs : ¬ c → m.Ends link ending w₀ P s w) :
    m.Ends link ending w₀ P (if c then Evaluation.fail realm f else s) w := by
  split
  · exact ends_fail h realm f
  · next hc => exact hs hc

theorem ends_toHost_bind {v : Value} {k : HostValue → Evaluation E α} (h : m.Leaves link w₀ w)
    (hk : ∀ x w', m.Leaves link w₀ w' → m.Ends link ending w₀ P (k x) w') :
    m.Ends link ending w₀ P (Evaluation.toHost v >>= k) w := by
  have hlater : m.Leaves link w₀ (w.toHost v).2 := h.still (World.still_toHost v w)
  rw [Ends, Evaluation.settle_toHost_bind]
  generalize w.toHost v = converted at hlater ⊢
  obtain ⟨_ | x, w'⟩ := converted
  · exact hlater
  · exact hk x w' hlater

/-- Behind a checkpoint a step goes on in a world where only chores have been done meanwhile. -/
theorem ends_checkpoint_bind {k : Unit → Evaluation E α} (h : m.Leaves link w₀ w)
    (hk : ∀ w', m.Leaves link w₀ w' → m.Lands link w₀ P (k ()) w') :
    m.Ends link ending w₀ P (Step.checkpoint >>= k) w := by
  have hlater : ∀ chores, m.Leaves link w₀ (Chore.performAll chores w) := fun chores =>
    h.still (Chore.still_performAll chores w)
  cases ending with
  | abandoned chores => exact hlater chores
  | answered chores answer =>
    cases answer with
    | error c => exact hlater chores
    | ok v =>
      obtain ⟨flow, w', hs, hgood⟩ := hk _ (hlater chores)
      show m.Settled link w₀ P (Ending.unanswered ((k ()).settle (Chore.performAll chores w)))
      rw [hs]
      exact hgood

theorem Ends.map {s : Evaluation E α} (h : m.Ends link ending w₀ P s w) (g : α → β)
    (hg : ∀ x w', P x w' → Q (g x) w') :
    m.Ends link ending w₀ Q (s >>= fun x => pure (g x)) w := by
  rw [Ends, Ending.conclude_map]
  rw [Ends] at h
  generalize ending.conclude (s.settle w) = concluded at h ⊢
  obtain ⟨_ | flow, w'⟩ := concluded
  · exact h
  · cases flow with
    | ok x => exact hg x w' h
    | error c => exact h

theorem Lands.bind {s : Evaluation E α} {k : α → Evaluation E β}
    (h : m.Lands link w₀ P s w) (hk : ∀ x w', P x w' → m.Lands link w₀ Q (k x) w') :
    m.Lands link w₀ Q (s >>= k) w := by
  obtain ⟨flow, w', hs, hgood⟩ := h
  rw [Lands, Step.bind_eq_andThen, Step.settle_andThen, hs]
  cases flow with
  | ok x => exact hk x w' hgood
  | error c => exact ⟨.error c, w', rfl, hgood⟩

theorem Lands.holding {things : List Thing} {s : Evaluation E α}
    (h : m.Lands link w₀ P s (w.hold things))
    (hgood : ∀ x w' w'', P x w' → w'.Still w'' → P x w'') :
    m.Lands link w₀ P (Evaluation.holding things s) w := by
  obtain ⟨flow, w', hs, hsettled⟩ := h
  have hstill : w'.Still (w'.letGo things) := World.still_letGo things w'
  refine ⟨flow, w'.letGo things, ?_, ?_⟩
  · show Step.settle (s.releasing _) (w.hold things) = _
    rw [Step.settle_releasing, hs]
  · cases flow with
    | ok x => exact hgood x w' _ hsettled hstill
    | error c => exact hsettled.still hstill

theorem lands_hostResult (realm : RealmId) {method : World E → Except HostError α × World E}
    (hok : ∀ x w', method w = (.ok x, w') → P x w')
    (herror : ∀ e w', method w = (.error e, w') → m.Leaves link w₀ w') :
    m.Lands link w₀ P (Evaluation.hostResult realm method) w := by
  rw [Lands, Evaluation.settle_hostResult]
  generalize hm : method w = result
  obtain ⟨e | x, w'⟩ := result
  · exact ⟨_, _, rfl, (herror e w' hm).still (World.still_hostError realm e w')⟩
  · exact ⟨.ok x, w', rfl, hok x w' hm⟩

/-- Reading a property leaves everything alone. -/
theorem ends_hostGet (h : m.Leaves link w₀ w) (realm : RealmId) (n : Native) (name : String) :
    m.Ends link ending w₀ (fun _ => m.Leaves link w₀)
      (Evaluation.hostGet World.link realm n name) w := by
  refine ends_checkpoint_bind h fun w₁ h₁ => Lands.holding (Lands.bind
    (P := fun _ => m.Leaves link w₀) ?_ fun x w₂ h₂ => ?_) fun _ _ _ h h' => h.still h'
  · have hget : m.Leaves link w₀ ((w₁.hold [.native n]).getProperty n name).2 :=
      (h₁.still (World.still_hold _ w₁)).trans (leaves_getProperty n name _)
    refine lands_hostResult realm (fun x w' hm => ?_) fun e w' hm => ?_
    · rw [hm] at hget
      exact hget
    · rw [hm] at hget
      exact hget
  · have hcollect : w₂.Still (w₂.collect x.things) := World.still_collect x.things w₂
    exact ⟨_, _, rfl, (h₂.still hcollect).still (World.still_link realm x _)⟩

end MapHost

namespace StoreHost

variable {m : StoreHost E host} {link : LinkId} {ending : Ending} {w₀ w : World E} {name : String}
  {P : α → World E → Prop}

/-- After a write that the host accepted, the property exists. -/
theorem ends_hostSet_bind {k : Unit → Evaluation E α} (hv : m.valid w₀.embedding)
    (h : m.Leaves link w₀ w) (realm : RealmId) (value : HostValue)
    (hk : ∀ w', m.Spares link (fun other => name ≠ other) w₀ w' →
      (m.properties w'.embedding name).isSome = true → m.Lands link w₀ P (k ()) w') :
    m.Ends link ending w₀ P (Evaluation.hostSet realm (.hosted host) name value >>= k) w := by
  rw [Evaluation.hostSet_bind]
  refine MapHost.ends_checkpoint_bind h fun w₁ h₁ => MapHost.Lands.bind (MapHost.Lands.holding
    (P := fun _ w' => m.Spares link (fun other => name ≠ other) w₀ w' ∧
      (m.properties w'.embedding name).isSome = true) ?_ ?_) fun _ w' hw' => hk w' hw'.1 hw'.2
  · have hhold : m.Leaves link w₀ (w₁.hold [.native (.hosted host)]) :=
      h₁.still (World.still_hold _ w₁)
    refine MapHost.lands_hostResult realm (fun _ w' hm => ?_) fun e w' hm => ?_
    · have hspares : m.Spares link (fun other => name ≠ other) _ _ :=
        m.spares_setProperty value (w₁.hold [.native (.hosted host)])
      rw [hm] at hspares
      exact ⟨(MapHost.Spares.of_leaves hhold).trans hspares,
        m.setProperty_accepted (hhold.valid hv) hm⟩
    · exact hhold.trans (m.setProperty_rejected hm)
  · rintro _ w' w'' ⟨hspares, hthere⟩ hstill
    refine ⟨hspares.still hstill, ?_⟩
    rw [hstill.calm.embedding]
    exact hthere

/-- A property that the host reported as deleted is gone, and one that it did not is kept. -/
theorem ends_hostDelete_bind {k : Bool → Evaluation E α} (hv : m.valid w₀.embedding)
    (h : m.Leaves link w₀ w) (realm : RealmId)
    (hdone : ∀ w', m.Spares link (fun other => name ≠ other) w₀ w' →
      m.properties w'.embedding name = none → m.Lands link w₀ P (k true) w')
    (hrefused : ∀ w', m.Leaves link w₀ w' → m.Lands link w₀ P (k false) w') :
    m.Ends link ending w₀ P (Evaluation.hostDelete realm (.hosted host) name >>= k) w := by
  rw [Evaluation.hostDelete_bind]
  refine MapHost.ends_checkpoint_bind h fun w₁ h₁ => MapHost.Lands.bind (MapHost.Lands.holding
    (P := fun b w' => if b then m.Spares link (fun other => name ≠ other) w₀ w' ∧
      m.properties w'.embedding name = none else m.Leaves link w₀ w') ?_ ?_) ?_
  · have hhold : m.Leaves link w₀ (w₁.hold [.native (.hosted host)]) :=
      h₁.still (World.still_hold _ w₁)
    refine MapHost.lands_hostResult realm (fun b w' hm => ?_) fun e w' hm => ?_
    · cases b with
      | true =>
        have hspares : m.Spares link (fun other => name ≠ other) _ _ :=
          m.spares_deleteProperty (w₁.hold [.native (.hosted host)])
        rw [hm] at hspares
        exact ⟨(MapHost.Spares.of_leaves hhold).trans hspares,
          m.deleteProperty_done (hhold.valid hv) hm⟩
      | false => exact hhold.trans (m.deleteProperty_refused (by simp) hm)
    · exact hhold.trans (m.deleteProperty_refused (by simp) hm)
  · rintro (_ | _) w' w'' hgood hstill
    · exact MapHost.Spares.still hgood hstill
    · refine ⟨hgood.1.still hstill, ?_⟩
      rw [hstill.calm.embedding]
      exact hgood.2
  · rintro (_ | _) w' hgood
    · exact hrefused w' hgood
    · exact hdone w' hgood.1 hgood.2

end StoreHost

/-! ## Records as such hosts -/

namespace Record

/-- A write is rejected, or the property gets the value. -/
theorem set_cases (name : String) (value : HostValue) (r : Record) :
    (∃ e, r.set name value = (.error e, r)) ∨ r.set name value = (.ok (), r.define name value) := by
  unfold Record.set
  split
  · exact .inl ⟨_, rfl⟩
  · exact .inl ⟨_, rfl⟩
  · split
    · exact .inl ⟨_, rfl⟩
    · exact .inr rfl

/-- A delete is refused, or the property is gone, if it was there. -/
theorem delete_cases (name : String) (r : Record) :
    ((r.delete name).1 ≠ .ok true ∧ (r.delete name).2 = r) ∨ r.delete name =
      (.ok (r.properties.contains name), { r with properties := r.properties.erase name }) := by
  unfold Record.delete
  split
  · exact .inl ⟨by simp, rfl⟩
  · exact .inl ⟨by simp, rfl⟩
  · split
    · exact .inl ⟨by simp, rfl⟩
    · exact .inr rfl

end Record

namespace Session

/-- Beyond the records of a session there are only passive ones, which stay as they are. -/
theorem record_onRecord_self {β : Type} {host : HostId} {f : Record → β × Record} {s : Session}
    (hdefault : (f default).2 = default) :
    (onRecord host f s).2.record host = (f (s.record host)).2 := by
  rw [record_onRecord]
  split
  · rfl
  · next h =>
    have hnone : s.records[host]? = none := by simpa using h
    rw [record, hnone, Option.getD_none, hdefault]

/-- A record as a host object that stores what it accepts. -/
def storeHost (host : HostId) (policy : Option Policy) : StoreHost Session host where
  toMapHost := mapHost host policy
  set_accepted {s} name value _ h := by
    show (((onRecord host (Record.set name value) s).2.record host).properties.find? name).isSome =
      true
    rw [record_onRecord_self rfl]
    rcases Record.set_cases name value (s.record host) with ⟨e, he⟩ | hset
    · have hfail : ((s.record host).set name value).1.isOk = true := h
      rw [he] at hfail
      cases hfail
    · rw [hset]
      simp [Record.define]
  set_rejected {s} name value _ h := by
    show ((onRecord host (Record.set name value) s).2.record host).properties.find? name = _
    rw [record_onRecord_self rfl]
    rcases Record.set_cases name value (s.record host) with ⟨e, he⟩ | hset
    · rw [he]
      rfl
    · have hok : ((s.record host).set name value).1.isOk = false := h
      rw [hset] at hok
      cases hok
  delete_done {s} name _ h := by
    show ((onRecord host (Record.delete name) s).2.record host).properties.find? name = none
    rw [record_onRecord_self rfl]
    rcases Record.delete_cases name (s.record host) with ⟨hrefused, -⟩ | hdelete
    · exact absurd h hrefused
    · rw [hdelete]
      exact Table.find?_erase_self _ name
  delete_refused {s} name _ h := by
    show ((onRecord host (Record.delete name) s).2.record host).properties.find? name =
      (s.record host).properties.find? name
    rw [record_onRecord_self rfl]
    rcases Record.delete_cases name (s.record host) with ⟨-, hkept⟩ | hdelete
    · rw [hkept]
    · have hresult : ((s.record host).delete name).1 ≠ .ok true := h
      rw [hdelete] at hresult ⊢
      -- nothing was there to be deleted
      have habsent : (s.record host).properties.find? name = none := by
        simpa [Table.contains] using hresult
      rw [habsent]
      exact Table.find?_erase_self _ name

end Session

end ScriptSandbox
