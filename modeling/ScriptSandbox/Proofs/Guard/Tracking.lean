import ScriptSandbox.Proofs.Guard.Storage

/-
  Created names.

  In a realm that tracks new properties, a link remembers the names that the script created through
  it. A run is a list of operations on one link and on handles taken from it, each followed to its
  end, and of chores; a history notes how every operation came out. `Turned` says what one operation
  does to the host object and to the created names, and by induction over a run the created names
  are those whose latest creation stands, and they exist (`accounts_follow`).
-/

namespace ScriptSandbox

variable {E α : Type} [Embedding E] {host : HostId}

/-! ## Tracked names -/

namespace MapHost

/-- The name is on the read list of the host object. -/
def ReadListed (m : MapHost E host) (name : String) : Prop :=
  ∃ policy names, m.policy = some policy ∧ policy.readList? = some names ∧ name ∈ names

def WriteListed (m : MapHost E host) (name : String) : Prop :=
  ∃ policy, m.policy = some policy ∧ name ∈ policy.writeList

/-- The script may read an existing property of the name, with these names created. -/
def Readable (m : MapHost E host) (created : NameSet) (name : String) : Prop :=
  m.ReadListed name ∨ name ∈ created

/-- It may write or delete it. -/
def Writable (m : MapHost E host) (created : NameSet) (name : String) : Prop :=
  m.WriteListed name ∨ name ∈ created

/-- The property exists on the host object. -/
def Exists (m : MapHost E host) (w : World E) (name : String) : Prop :=
  (m.properties w.embedding name).isSome = true

instance (m : MapHost E host) (w : World E) (name : String) : Decidable (m.Exists w name) :=
  inferInstanceAs (Decidable (_ = true))

/-- The link belongs to the host object, its realm tracks new properties, and these names are
    created. -/
structure Tracks (m : MapHost E host) (link : LinkId) (realm : RealmId) (created : NameSet)
    (w : World E) : Prop where
  valid : m.valid w.embedding
  linked : ∃ live, w.links[link]? = some ⟨realm, .hosted host, created, live⟩
  tracking : (w.realm realm).newProperties = .trackCreated

/-- The handle belongs to the link, and if it may only be read, its name exists and may not be
    written. -/
structure Handles (m : MapHost E host) (link : LinkId) (created : NameSet) (w : World E)
    (r : Reference) : Prop where
  base : r.base = .link link
  readOnly : r.access = .readOnly → m.Exists w r.name ∧ ¬ m.Writable created r.name

variable {m : MapHost E host} {link : LinkId} {realm : RealmId} {created : NameSet}
  {names : String → Prop} {w w' : World E} {name : String}

theorem Spares.tracks (hs : m.Spares link names w w') (h : m.Tracks link realm created w) :
    m.Tracks link realm created w' where
  valid := hs.valid h.valid
  linked := by
    obtain ⟨live, hl⟩ := h.linked
    exact hs.remembers hl
  tracking := (hs.conduct realm).trans h.tracking

theorem Spares.exists_iff (hs : m.Spares link names w w') (hv : m.valid w.embedding)
    (hname : names name) : m.Exists w' name ↔ m.Exists w name := by
  rw [Exists, Exists, hs.same hv name hname]

namespace Tracks

variable (h : m.Tracks link realm created w)
include h

theorem linkNative? : w.linkNative? link = some (.hosted host) := by
  obtain ⟨live, hl⟩ := h.linked
  rw [World.linkNative?, hl]
  rfl

theorem hasProperty_iff : w.hasProperty (.hosted host) name = true ↔ m.Exists w name := by
  rw [Exists, ← m.has_eq name h.valid]
  rfl

theorem createdByScript_iff {l : Link} (hl : w.links[link]? = some l) :
    w.createdByScript l name = true ↔ name ∈ created := by
  obtain ⟨live, hl'⟩ := h.linked
  obtain rfl := Option.some_inj.mp (hl.symm.trans hl')
  simp only [World.createdByScript, h.tracking, decide_true, Bool.true_and, NameSet.contains_iff]

/-- A name is let through that the policy of the host object admits or that was created. -/
theorem admits_iff {l : Link} (hl : w.links[link]? = some l) (f : Policy → Bool) :
    (((w.policy? l.native).map f).getD false || w.createdByScript l name) = true ↔
      (∃ policy, m.policy = some policy ∧ f policy = true) ∨ name ∈ created := by
  rw [Bool.or_eq_true, h.createdByScript_iff hl]
  obtain ⟨live, hl'⟩ := h.linked
  obtain rfl := Option.some_inj.mp (hl.symm.trans hl')
  have hpolicy : w.policy? (.hosted host) = m.policy := m.policy_eq h.valid
  rw [hpolicy]
  cases m.policy <;> simp

theorem allowsRead_iff {l : Link} (hl : w.links[link]? = some l) :
    w.allowsRead l name = true ↔ m.Readable created name := by
  refine (h.admits_iff hl (·.allowsRead name)).trans (or_congr_left (exists_congr fun policy => ?_))
  rw [exists_and_left]
  refine and_congr_right fun _ => ?_
  unfold Policy.allowsRead
  cases policy.readList? <;> simp

theorem allowsWrite_iff {l : Link} (hl : w.links[link]? = some l) :
    w.allowsWrite l name = true ↔ m.Writable created name := by
  refine (h.admits_iff hl (·.allowsWrite name)).trans (or_congr_left (exists_congr fun policy => ?_))
  rw [Policy.allowsWrite, List.contains_iff_mem]

theorem reference_eq_sealed_iff :
    (w.reference (.link link) name).access = .sealed ↔
      m.Exists w name ∧ ¬ m.Readable created name := by
  obtain ⟨live, hl⟩ := h.linked
  rw [← h.hasProperty_iff, ← h.allowsRead_iff hl]
  simp only [World.reference, hl, Option.map_some, Option.getD_some, World.linkAccess]
  split
  · next hmissing => simp_all
  · split
    · next hdenied => simp_all
    · split <;> simp_all

theorem handles_reference : m.Handles link created w (w.reference (.link link) name) := by
  refine ⟨rfl, fun hr => ?_⟩
  obtain ⟨live, hl⟩ := h.linked
  show m.Exists w name ∧ ¬ m.Writable created name
  rw [← h.hasProperty_iff, ← h.allowsWrite_iff hl]
  simp only [World.reference, hl, Option.map_some, Option.getD_some, World.linkAccess] at hr
  split at hr
  · cases hr
  · next hthere =>
    split at hr
    · cases hr
    · split at hr
      · next hdenied => simp_all
      · cases hr

theorem modifyCreated (f : NameSet → NameSet) :
    m.Tracks link realm (f created)
      (w.modifyLink link fun l => { l with created := f l.created }) where
  valid := h.valid
  linked := by
    obtain ⟨live, hl⟩ := h.linked
    refine ⟨live, ?_⟩
    simp only [World.modifyLink, Array.getElem?_modify, if_true, hl, Option.map_some]
  tracking := h.tracking

end Tracks

/-- An operation has created and deleted properties of some names, and the link has taken notice. -/
structure Turned (m : MapHost E host) (link : LinkId) (realm : RealmId)
    (creates deletes : String → Prop) (created : NameSet) (w : World E) (created' : NameSet)
    (w' : World E) : Prop where
  tracks : m.Tracks link realm created' w'
  mem_iff : ∀ {name}, name ∈ created' ↔ creates name ∨ name ∈ created ∧ ¬ deletes name
  fresh : ∀ {name}, creates name → ¬ m.Exists w name
  made : ∀ {name}, creates name → m.Exists w' name
  kept : ∀ {name}, m.Exists w name → ¬ deletes name → m.Exists w' name
  permitted : ∀ {name}, m.Exists w name → deletes name → m.Writable created name

variable {creates deletes : String → Prop} {created' : NameSet}

theorem Turned.congr {creates' deletes' : String → Prop}
    (h : m.Turned link realm creates deletes created w created' w')
    (hc : ∀ name, creates' name ↔ creates name) (hd : ∀ name, deletes' name ↔ deletes name) :
    m.Turned link realm creates' deletes' created w created' w' := by
  obtain rfl : creates' = creates := funext fun name => propext (hc name)
  obtain rfl : deletes' = deletes := funext fun name => propext (hd name)
  exact h

/-- What exists and may not be written stays so. -/
theorem Turned.protected (h : m.Turned link realm creates deletes created w created' w')
    (he : m.Exists w name) (hw : ¬ m.Writable created name) :
    m.Exists w' name ∧ ¬ m.Writable created' name := by
  refine ⟨h.kept he fun hd => hw (h.permitted he hd), ?_⟩
  rintro (hlisted | hmem)
  · exact hw (.inl hlisted)
  · rcases h.mem_iff.mp hmem with hc | ⟨hold, -⟩
    · exact h.fresh hc he
    · exact hw (.inr hold)

theorem Turned.handles {r : Reference}
    (ht : m.Turned link realm creates deletes created w created' w')
    (h : m.Handles link created w r) : m.Handles link created' w' r := by
  refine ⟨h.base, fun ha => ?_⟩
  obtain ⟨he, hw⟩ := h.readOnly ha
  exact ht.protected he hw

theorem turned_quiet (ht : m.Tracks link realm created w')
    (hkept : ∀ {name}, m.Exists w name → m.Exists w' name)
    (hc : ∀ name, ¬ creates name) (hd : ∀ name, ¬ deletes name) :
    m.Turned link realm creates deletes created w created w' where
  tracks := ht
  mem_iff {name} := by
    rw [iff_false_intro (hc name), false_or, iff_true_intro (hd name), and_true]
  fresh hname := absurd hname (hc _)
  made hname := absurd hname (hc _)
  kept hname _ := hkept hname
  permitted _ hname := absurd hname (hd _)

theorem Spares.turned (hs : m.Leaves link w w') (h : m.Tracks link realm created w)
    (hc : ∀ name, ¬ creates name) (hd : ∀ name, ¬ deletes name) :
    m.Turned link realm creates deletes created w created w' :=
  turned_quiet (hs.tracks h) (fun he => (hs.exists_iff h.valid trivial).mpr he) hc hd

/-- A write of an existing property creates nothing. -/
theorem Spares.turned_written (hs : m.Spares link (fun other => name ≠ other) w w')
    (h : m.Tracks link realm created w) (hthere : m.Exists w' name)
    (hc : ∀ name, ¬ creates name) (hd : ∀ name, ¬ deletes name) :
    m.Turned link realm creates deletes created w created w' := by
  refine turned_quiet (hs.tracks h) (fun {other} he => ?_) hc hd
  by_cases heq : name = other
  · exact heq ▸ hthere
  · exact (hs.exists_iff h.valid heq).mpr he

/-- A property that came into being is remembered. -/
theorem Spares.turned_created (hs : m.Spares link (fun other => name ≠ other) w w')
    (h : m.Tracks link realm created w) (hmissing : ¬ m.Exists w name)
    (hthere : m.Exists w' name) :
    m.Turned link realm (· = name) (fun _ => False) created w (created.insert name)
      (w'.addCreated link name) where
  tracks := (hs.tracks h).modifyCreated (·.insert name)
  mem_iff {other} := by simp [or_comm]
  fresh heq := heq ▸ hmissing
  made heq := heq ▸ hthere
  kept {other} hother _ := by
    have hne : name ≠ other := fun heq => hmissing (heq ▸ hother)
    exact (hs.exists_iff h.valid hne).mpr hother
  permitted _ hd := hd.elim

/-- A property that is gone is forgotten. -/
theorem Spares.turned_deleted (hs : m.Spares link (fun other => name ≠ other) w w')
    (h : m.Tracks link realm created w) (hw : m.Writable created name) :
    m.Turned link realm (fun _ => False) (· = name) created w (created.erase name)
      (w'.removeCreated link name) where
  tracks := (hs.tracks h).modifyCreated (·.erase name)
  mem_iff {other} := by simp
  fresh hc := hc.elim
  made hc := hc.elim
  kept hother hne := (hs.exists_iff h.valid (Ne.symm hne)).mpr hother
  permitted _ heq := heq ▸ hw

end MapHost

/-! ## Operations on the link -/

namespace StoreHost

variable {m : StoreHost E host} {link : LinkId} {realm : RealmId} {created : NameSet}
  {ending : Ending} {w : World E} {name : String} {l : Link}

theorem ends_member (l : Link) (name : String) :
    m.Ends link ending w (fun _ => m.Leaves link w) (l.member name) w := by
  have hrefl : m.Leaves link w w := MapHost.leaves_refl w
  show m.Ends link ending w _ (ite ((!w.hasProperty l.native name) = true) _ _) w
  split
  · exact hrefl
  · show m.Ends link ending w _ (ite ((!w.allowsRead l name) = true) _ _) w
    exact MapHost.ends_unless hrefl fun _ => MapHost.ends_hostGet hrefl l.realm l.native name

/-- A write creates the property if it did not exist. -/
theorem ends_put (h : m.Tracks link realm created w) (hl : w.links[link]? = some l)
    (value : Value) :
    m.Ends link ending w (fun _ w' => ∃ created', m.Turned link realm
      (fun other => other = name ∧ w.hasProperty (.hosted host) name = false) (fun _ => False)
      created w created' w') (l.put link name value) w := by
  have hrefl : m.Leaves link w w := MapHost.leaves_refl w
  obtain ⟨live, hl'⟩ := h.linked
  obtain rfl := Option.some_inj.mp (hl.symm.trans hl')
  show m.Ends link ending w _ (ite ((!!w.hasProperty (.hosted host) name && _) = true) _ _) w
  split
  · exact MapHost.ends_fail hrefl realm _
  · refine MapHost.ends_toHost_bind hrefl fun x w₁ h₁ => ?_
    -- whether the realm tracks is looked up only now, in the world that the conversion left
    show m.Ends link ending w _ (Evaluation.hostSet realm (.hosted host) name x >>= fun _ =>
      ite ((!w.hasProperty (.hosted host) name &&
        (w₁.realm realm).newProperties == .trackCreated) = true) _ _) w₁
    rw [(h₁.tracks h).tracking]
    refine m.ends_hostSet_bind h.valid h₁ realm x fun w₂ h₂ hthere => ?_
    cases hhas : w.hasProperty (.hosted host) name with
    | true =>
      refine ⟨.ok (), w₂, rfl, created, h₂.turned_written h hthere ?_ fun _ => id⟩
      simp
    | false =>
      have hmissing : ¬ m.Exists w name := by
        rw [← h.hasProperty_iff, hhas]
        exact Bool.false_ne_true
      refine ⟨.ok (), w₂.addCreated link name, rfl, created.insert name, ?_⟩
      exact (h₂.turned_created h hmissing hthere).congr (by simp) fun _ => Iff.rfl

/-- A delete that succeeds takes away a property that may be written, or one that does not exist. -/
theorem ends_delete (h : m.Tracks link realm created w) (hl : w.links[link]? = some l)
    (hexist : ∀ name ∈ created, m.Exists w name) :
    m.Ends link ending w (fun b w' => ∃ created', m.Turned link realm (fun _ => False)
      (fun other => other = name ∧ b = true) created w created' w') (l.delete link name) w := by
  have hrefl : m.Leaves link w w := MapHost.leaves_refl w
  obtain ⟨live, hl'⟩ := h.linked
  obtain rfl := Option.some_inj.mp (hl.symm.trans hl')
  show m.Ends link ending w _ (ite ((!w.hasProperty (.hosted host) name) = true) _ _) w
  split
  · next hmissing =>
    -- nothing happens: the name is not a created one, since those exist
    have hgone : ¬ m.Exists w name := by
      rw [← h.hasProperty_iff]
      simpa using hmissing
    refine ⟨created, h, fun {other} => ?_, ?_, ?_, fun ho _ => ho, ?_⟩
    · have hother : other ∈ created → other ≠ name := fun ho heq => hgone (heq ▸ hexist other ho)
      simpa using hother
    · rintro other ⟨⟩
    · rintro other ⟨⟩
    · rintro other ho ⟨rfl, -⟩
      exact absurd ho hgone
  · show m.Ends link ending w _ (ite ((!w.allowsWrite _ name) = true) _ _) w
    split
    · exact MapHost.ends_fail hrefl realm _
    · next hallowed =>
      have hwritable : m.Writable created name := by
        rw [← h.allowsWrite_iff hl]
        simpa using hallowed
      refine m.ends_hostDelete_bind h.valid hrefl realm (fun w₁ h₁ hgone => ?_) fun w₁ h₁ => ?_
      · refine ⟨.ok true, w₁.removeCreated link name, rfl, created.erase name, ?_⟩
        exact (h₁.turned_deleted h hwritable).congr (fun _ => Iff.rfl) (by simp)
      · exact ⟨.ok false, w₁, rfl, created, h₁.turned h (fun _ => id) fun _ hd => by simp at hd⟩

end StoreHost

/-! ## Histories -/

/-- How an operation came out, and whether the property that it was to change existed. -/
structure Entry where
  operation : ValueOperation
  existed : Bool
  /-- There is no reply if the operation was abandoned. -/
  reply : Option (Flow Reply)

namespace Entry

/-- An accepted write of a property that did not exist. -/
def Creates (e : Entry) (name : String) : Prop :=
  e.operation.writes? = some name ∧ e.existed = false ∧ e.reply = some (.ok (.result .done))

/-- A successful delete. -/
def Deletes (e : Entry) (name : String) : Prop :=
  e.operation.writes? = some name ∧ e.reply = some (.ok (.result (.flag true)))

/-- In a history with the latest entry first, the latest creation of the name has not been followed
    by a delete. -/
def Stands (history : List Entry) (name : String) : Prop :=
  ∃ newer e older, history = newer ++ e :: older ∧ e.Creates name ∧
    ∀ d ∈ newer, ¬ d.Creates name ∧ ¬ d.Deletes name

theorem not_stands_nil (name : String) : ¬ Stands [] name := by
  rintro ⟨newer, e, older, h, -⟩
  simp at h

theorem stands_cons {d : Entry} {history : List Entry} {name : String} :
    Stands (d :: history) name ↔ d.Creates name ∨ Stands history name ∧ ¬ d.Deletes name := by
  constructor
  · rintro ⟨newer, e, older, h, he, hnewer⟩
    cases newer with
    | nil =>
      obtain ⟨rfl, -⟩ := List.cons.inj h
      exact .inl he
    | cons x newer =>
      obtain ⟨rfl, hrest⟩ := List.cons.inj h
      refine .inr ⟨⟨newer, e, older, hrest, he, fun x hx => ?_⟩, ?_⟩
      · exact hnewer x (List.mem_cons_of_mem _ hx)
      · exact (hnewer d List.mem_cons_self).2
  · rintro (hd | ⟨⟨newer, e, older, rfl, he, hnewer⟩, hdeletes⟩)
    · exact ⟨[], d, history, rfl, hd, fun _ hx => absurd hx List.not_mem_nil⟩
    -- a creation on top of a standing one would be the latest
    · by_cases hd : d.Creates name
      · exact ⟨[], d, _, rfl, hd, fun _ hx => absurd hx List.not_mem_nil⟩
      · refine ⟨d :: newer, e, older, rfl, he, fun x hx => ?_⟩
        rcases List.mem_cons.mp hx with rfl | hx
        · exact ⟨hd, hdeletes⟩
        · exact hnewer x hx

end Entry

/-! ## Runs on a link -/

/-- A world with the handles that were taken and the operations that ended in it, the latest
    first. -/
structure LinkRun (E : Type) where
  world : World E
  handles : List Reference
  history : List Entry

inductive LinkEvent where
  /-- An operation that is followed to its end. -/
  | operate (realm : RealmId) (op : ValueOperation) (ending : Ending)
  | chore (c : Chore)

namespace LinkRun

/-- Nothing has been done yet. -/
def start (w : World E) : LinkRun E := ⟨w, [], []⟩

/-- The operations on properties of the link, directly or through a handle that was taken. -/
def offers (link : LinkId) (run : LinkRun E) : ValueOperation → Bool
  | .member base _ | .put base _ _ | .delete base _ | .refer base _ => base = .link link
  | .get r | .set r _ | .remove r => r ∈ run.handles
  | _ => false

/-- The handles that a reply brings. -/
def taken : Option (Flow Reply) → List Reference
  | some (.ok (.handle r)) => [r]
  | _ => []

theorem mem_taken {r : Reference} {reply : Option (Flow Reply)} :
    r ∈ taken reply ↔ reply = some (.ok (.handle r)) := by
  rcases reply with _ | c | _ | r'
  · simp [taken]
  · simp [taken]
  · simp [taken]
  · simp [taken, eq_comm]

/-- What an operation on properties of a host object does. -/
def operate (host : HostId) (realm : RealmId) (op : ValueOperation) (ending : Ending)
    (run : LinkRun E) : LinkRun E :=
  let (reply, w) := ending.conclude ((op.step realm).settle run.world)
  { world := w
    handles := taken reply ++ run.handles
    history := ⟨op, op.writes?.any (run.world.hasProperty (.hosted host)), reply⟩ :: run.history }

/-- What an event does; operations that are not on offer are left out. -/
def advance (host : HostId) (link : LinkId) (run : LinkRun E) : LinkEvent → LinkRun E
  | .operate realm op ending =>
    if run.offers link op then run.operate host realm op ending else run
  | .chore c => { run with world := (c.perform run.world).2 }

/-- The events of a list one after the other. -/
def follow (host : HostId) (link : LinkId) (run : LinkRun E) (events : List LinkEvent) :
    LinkRun E :=
  events.foldl (advance host link) run

/-- The created names are those whose latest creation stands, and they exist. -/
structure Accounts (m : MapHost E host) (link : LinkId) (realm : RealmId) (created : NameSet)
    (run : LinkRun E) : Prop where
  tracks : m.Tracks link realm created run.world
  standing : ∀ {name}, name ∈ created ↔ Entry.Stands run.history name
  exist : ∀ name ∈ created, m.Exists run.world name
  handles : ∀ r ∈ run.handles, m.Handles link created run.world r

/-- What an operation that came to a result did, as its entry tells. -/
def Noted (m : MapHost E host) (link : LinkId) (realm : RealmId) (created : NameSet) (w : World E)
    (op : ValueOperation) (reply : Reply) (w' : World E) : Prop :=
  let e : Entry := ⟨op, op.writes?.any (w.hasProperty (.hosted host)), some (.ok reply)⟩
  (∃ created', m.Turned link realm e.Creates e.Deletes created w created' w') ∧
    ∀ r, reply = .handle r → m.Handles link created w r

variable {m : StoreHost E host} {link : LinkId} {realm : RealmId} {created : NameSet}
  {run : LinkRun E}

section Noted

variable {w w' : World E} {op : ValueOperation} {name : String}

theorem noted_of_leaves {reply : Reply}
    (h : m.Tracks link realm created w) (hs : m.Leaves link w w')
    (hdone : op.writes?.isSome = true → reply ≠ .result .done ∧ reply ≠ .result (.flag true))
    (hreply : ∀ r, reply = .handle r → m.Handles link created w r) :
    Noted m.toMapHost link realm created w op reply w' := by
  refine ⟨⟨created, hs.turned h ?_ ?_⟩, hreply⟩
  · rintro name ⟨hname, -, hc⟩
    refine (hdone ?_).1 (by simpa using hc)
    exact Option.isSome_iff_exists.mpr ⟨name, hname⟩
  · rintro name ⟨hname, hd⟩
    refine (hdone ?_).2 (by simpa using hd)
    exact Option.isSome_iff_exists.mpr ⟨name, hname⟩

theorem noted_of_put (hop : op.writes? = some name)
    (ht : ∃ created', m.Turned link realm
      (fun other => other = name ∧ w.hasProperty (.hosted host) name = false) (fun _ => False)
      created w created' w') :
    Noted m.toMapHost link realm created w op (.result .done) w' := by
  obtain ⟨created', ht⟩ := ht
  refine ⟨⟨created', ht.congr (fun other => ?_) fun other => ?_⟩, fun r hr => by cases hr⟩
  · rw [eq_comm (a := other)]
    simp [Entry.Creates, hop]
  · simp [Entry.Deletes]

theorem noted_of_delete {b : Bool} (hop : op.writes? = some name)
    (ht : ∃ created', m.Turned link realm (fun _ => False) (fun other => other = name ∧ b = true)
      created w created' w') :
    Noted m.toMapHost link realm created w op (.result (.flag b)) w' := by
  obtain ⟨created', ht⟩ := ht
  refine ⟨⟨created', ht.congr (fun other => ?_) fun other => ?_⟩, fun r hr => by cases hr⟩
  · simp [Entry.Creates]
  · rw [eq_comm (a := other)]
    simp [Entry.Deletes, hop]

end Noted

/-- An operation on offer is noted with what it did, if it comes to a result. -/
theorem ends_step {op : ValueOperation} (h : Accounts m.toMapHost link realm created run)
    (ho : run.offers link op = true) (realm' : RealmId) (ending : Ending) :
    m.Ends link ending run.world (Noted m.toMapHost link realm created run.world op)
      (op.step realm') run.world := by
  obtain ⟨live, hl⟩ := h.tracks.linked
  have hrefl : m.Leaves link run.world run.world := MapHost.leaves_refl run.world
  have member (name : String) : m.Ends link ending run.world (fun _ => m.Leaves link run.world)
      ((Value.link link).member name realm') run.world := by
    simp only [Value.member, MapHost.ends_inspect, hl]
    exact m.ends_member _ name
  have put (name : String) (value : Value) : m.Ends link ending run.world (fun _ w' =>
      ∃ created', m.Turned link realm
        (fun other => other = name ∧ run.world.hasProperty (.hosted host) name = false)
        (fun _ => False) created run.world created' w')
      ((Value.link link).put name value realm') run.world := by
    simp only [Value.put, MapHost.ends_inspect, hl]
    exact m.ends_put h.tracks hl value
  have delete (name : String) : m.Ends link ending run.world (fun b w' =>
      ∃ created', m.Turned link realm (fun _ => False) (fun other => other = name ∧ b = true)
        created run.world created' w') ((Value.link link).delete name realm') run.world := by
    simp only [Value.delete, MapHost.ends_inspect, hl]
    exact m.ends_delete h.tracks hl h.exist
  have quiet {op : ValueOperation} {v : Value} {w' : World E} (hs : m.Leaves link run.world w') :
      Noted m.toMapHost link realm created run.world op (.result (.value v)) w' :=
    noted_of_leaves h.tracks hs (fun _ => ⟨by simp, by simp⟩) fun r hr => by cases hr
  cases op with
  | member base name =>
    obtain rfl : base = .link link := of_decide_eq_true ho
    exact (member name).map _ fun v w' => quiet
  | put base name value =>
    obtain rfl : base = .link link := of_decide_eq_true ho
    exact (put name value).map _ fun _ w' => noted_of_put rfl
  | delete base name =>
    obtain rfl : base = .link link := of_decide_eq_true ho
    exact (delete name).map _ fun b w' => noted_of_delete rfl
  | refer base name =>
    obtain rfl : base = .link link := of_decide_eq_true ho
    refine noted_of_leaves h.tracks hrefl (fun hw => by cases hw) fun r hr => ?_
    obtain rfl : run.world.reference (.link link) name = r := Reply.handle.inj hr
    exact h.tracks.handles_reference
  | get r =>
    have hbase : r.base = .link link := (h.handles r (of_decide_eq_true ho)).base
    refine MapHost.Ends.map (P := fun _ => m.Leaves link run.world) ?_ _ fun v w' => quiet
    rw [Reference.get, hbase]
    exact MapHost.ends_unless hrefl fun _ => member r.name
  | set r value =>
    have hbase : r.base = .link link := (h.handles r (of_decide_eq_true ho)).base
    refine MapHost.Ends.map ?_ _ fun _ w' => noted_of_put rfl
    rw [Reference.set, hbase]
    exact MapHost.ends_unless hrefl fun _ => put r.name value
  | remove r =>
    have hbase : r.base = .link link := (h.handles r (of_decide_eq_true ho)).base
    refine MapHost.Ends.map ?_ _ fun b w' => noted_of_delete rfl
    rw [Reference.delete, hbase]
    exact MapHost.ends_unless hrefl fun _ => delete r.name
  | describe v => cases ho
  | call callee receiver args => cases ho
  | toPrimitive v hint => cases ho
  | unary op v => cases ho
  | binary op a b => cases ho

/-- One operation keeps the account: its entry says what became of the created names. -/
theorem Accounts.operate {op : ValueOperation} (h : Accounts m.toMapHost link realm created run)
    (ho : run.offers link op = true) (realm' : RealmId) (ending : Ending) :
    ∃ created', Accounts m.toMapHost link realm created' (run.operate host realm' op ending) := by
  have hends := ends_step h ho realm' ending
  unfold MapHost.Ends at hends
  unfold LinkRun.operate
  generalize ending.conclude ((op.step realm').settle run.world) = concluded at hends ⊢
  obtain ⟨reply, w'⟩ := concluded
  have hturned : ∃ created', m.Turned link realm
      (Entry.Creates ⟨op, op.writes?.any (run.world.hasProperty (.hosted host)), reply⟩)
      (Entry.Deletes ⟨op, op.writes?.any (run.world.hasProperty (.hosted host)), reply⟩)
      created run.world created' w' ∧
      ∀ r ∈ taken reply, m.Handles link created run.world r := by
    rcases hends.cases with ⟨x, hx, ⟨created', ht⟩, hhandles⟩ | ⟨hnone, hleaves⟩
    · obtain rfl : reply = some (.ok x) := hx
      refine ⟨created', ht, fun r hr => hhandles r ?_⟩
      simpa using mem_taken.mp hr
    · refine ⟨created, hleaves.turned h.tracks ?_ ?_, fun r hr => ?_⟩
      · exact fun name hc => hnone _ hc.2.2
      · exact fun name hd => hnone _ hd.2
      · exact absurd (mem_taken.mp hr) (hnone _)
  obtain ⟨created', ht, hhandles⟩ := hturned
  refine ⟨created', ht.tracks, fun {name} => ?_, fun name hname => ?_, fun r hr => ?_⟩
  · rw [Entry.stands_cons, ← h.standing]
    exact ht.mem_iff
  · rcases ht.mem_iff.mp hname with hc | ⟨hold, hd⟩
    · exact ht.made hc
    · exact ht.kept (h.exist name hold) hd
  · rcases List.mem_append.mp hr with hr | hr
    · exact ht.handles (hhandles r hr)
    · exact ht.handles (h.handles r hr)

theorem Accounts.chore (h : Accounts m.toMapHost link realm created run) (c : Chore) :
    Accounts m.toMapHost link realm created { run with world := (c.perform run.world).2 } := by
  have hs : m.Leaves link run.world (c.perform run.world).2 :=
    MapHost.leaves_of_still (c.still_perform run.world)
  have hexists : ∀ name, m.Exists (c.perform run.world).2 name ↔ m.Exists run.world name :=
    fun name => hs.exists_iff h.tracks.valid trivial
  refine ⟨hs.tracks h.tracks, h.standing, fun name hname => ?_, fun r hr => ?_⟩
  · exact (hexists name).mpr (h.exist name hname)
  · refine ⟨(h.handles r hr).base, fun ha => ?_⟩
    obtain ⟨he, hw⟩ := (h.handles r hr).readOnly ha
    exact ⟨(hexists r.name).mpr he, hw⟩

theorem accounts_start {w : World E} (h : m.Tracks link realm ∅ w) :
    Accounts m.toMapHost link realm ∅ (start w) where
  tracks := h
  standing {name} := iff_of_false List.not_mem_nil (Entry.not_stands_nil name)
  exist _ hname := absurd hname List.not_mem_nil
  handles _ hr := absurd hr List.not_mem_nil

theorem accounts_follow (h : Accounts m.toMapHost link realm created run)
    (events : List LinkEvent) :
    ∃ created', Accounts m.toMapHost link realm created' (run.follow host link events) := by
  induction events generalizing created run with
  | nil => exact ⟨created, h⟩
  | cons event rest ih =>
    have hstep : ∃ created', Accounts m.toMapHost link realm created'
        (run.advance host link event) := by
      cases event with
      | chore c => exact ⟨created, h.chore c⟩
      | operate realm' op ending =>
        show ∃ created', Accounts m.toMapHost link realm created'
          (if run.offers link op then run.operate host realm' op ending else run)
        split
        · next ho => exact h.operate ho realm' ending
        · exact ⟨created, h⟩
    obtain ⟨created', h'⟩ := hstep
    exact ih h'

end LinkRun

end ScriptSandbox
