import ScriptSandbox.Proofs.Guard.Atomicity
import ScriptSandbox.Proofs.Guard.Tracking

/-
  What reaches the host.

  An operation reaches the host object when it gets to its checkpoint and makes the access that it
  is for once it has a result for an answer. For an existing name on a link that tracks what the
  script created, this goes by the allow-lists and the created names, and through a handle likewise
  unless the handle is sealed. Together with the account of the created names it is the main
  statement, `tracked_access_exact`. A handle is sealed when its name could not be read as it was
  taken, and refuses everything from then on, writes to names on the write list included
  (`write_listed_sealed`).
-/

namespace ScriptSandbox

variable {E : Type} [Embedding E] {host : HostId}

/-! ## Operations that wait -/

namespace Step

variable {σ α β : Type}

/-- The front is a request. -/
def Front.Waits : Front σ α → Prop
  | .waiting _ _ _ => True
  | _ => False

theorem waits_map {s : Step σ α} {g : α → β} {w : σ} :
    ((s >>= fun x => pure (g x)).settle w).1.Waits ↔ (s.settle w).1.Waits := by
  rw [bind_eq_andThen, settle_andThen]
  generalize s.settle w = settled
  obtain ⟨front, w₁⟩ := settled
  cases front with
  | finished flow => cases flow <;> rfl
  | faulted e => rfl
  | waiting r release resume => rfl

/-- A step that is refused under a condition waits only where the condition fails. -/
theorem waits_unless {c : Prop} [Decidable c] {s : Evaluation E α} {realm : RealmId} {f : Failure}
    {w : World E} :
    ((if c then Evaluation.fail realm f else s).settle w).1.Waits ↔ ¬ c ∧ (s.settle w).1.Waits := by
  split
  · next hc => exact iff_of_false id fun h => h.1 hc
  · next hc => exact (and_iff_right hc).symm

end Step

namespace ValueOperation

/-- The operation gets to its checkpoint, and with a result for an answer it makes an access that it
    is for. -/
def Reaches (op : ValueOperation) (realm : RealmId) (n : Native) (w : World E) : Prop :=
  ∃ resume w₁ a, (op.step realm).settle w = (.waiting .checkpoint id resume, w₁) ∧
    op.Accesses n a ∧ ∀ v, a.Performs (resume (.ok v))

/-- An operation on a wrapper that waits will make its access. -/
theorem reaches_iff_waits {op : ValueOperation} {k : WrapperKind} {id : Nat} {n : Native}
    {w : World E} (h : op.target? = some (k.value id)) (hn : w.native? (k.value id) = some n)
    (realm : RealmId) :
    op.Reaches realm n w ↔ ((op.step realm : Evaluation E Reply).settle w).1.Waits := by
  constructor
  · rintro ⟨resume, w₁, a, hs, -, -⟩
    rw [hs]
    trivial
  · intro hwaits
    obtain ⟨-, hfront⟩ := op.prudent_step h realm w
    cases hs : (op.step realm : Evaluation E Reply).settle w with
    | mk front w₁ =>
      rw [hs] at hwaits hfront
      cases front with
      | finished flow => exact hwaits.elim
      | faulted e => exact hwaits.elim
      | waiting r release resume =>
        obtain ⟨rfl, rfl, -, a, ⟨n', hn', ha⟩, hperforms⟩ := hfront
        obtain rfl := Option.some_inj.mp (hn.symm.trans hn')
        exact ⟨resume, w₁, a, hs, ha, hperforms⟩

/-- A sealed handle lets nothing through. -/
theorem not_reaches_sealed {r : Reference} (hr : r.access = .sealed) {value : Value}
    {op : ValueOperation} (hop : op ∈ [.get r, .set r value, .remove r]) (realm : RealmId)
    (n : Native) (w : World E) : ¬ op.Reaches realm n w := by
  rintro ⟨resume, w₁, a, hs, -, -⟩
  have hwaits : ((op.step realm : Evaluation E Reply).settle w).1.Waits := by
    rw [hs]
    trivial
  simp only [List.mem_cons, List.not_mem_nil, or_false] at hop
  rcases hop with rfl | rfl | rfl
  · exact (Step.waits_unless.mp (Step.waits_map.mp hwaits)).1 hr
  · refine (Step.waits_unless.mp (Step.waits_map.mp hwaits)).1 fun ha => ?_
    rw [hr] at ha
    cases ha
  · exact (Step.waits_unless.mp (Step.waits_map.mp hwaits)).1 hr

end ValueOperation

/-! ## What a link decides -/

namespace Link

open Evaluation

variable {w : World E} {id : LinkId} {l : Link} (hl : w.links[id]? = some l) (name : String)
include hl

theorem settle_member (realm : RealmId) :
    ((Value.link id).member name realm : Evaluation E Value).settle w =
      if w.hasProperty l.native name then
        if w.allowsRead l name then (hostGet World.link l.realm l.native name).settle w
        else (fail l.realm (.protectedRead name)).settle w
      else (.finished (.ok .undefined), w) := by
  simp only [Value.member, Step.settle, hl]
  show Step.settle (ite ((!w.hasProperty l.native name) = true) _ _) w = _
  cases w.hasProperty l.native name with
  | false => rfl
  | true =>
    show Step.settle (ite ((!w.allowsRead l name) = true) _ _) w = _
    cases w.allowsRead l name <;> rfl

theorem settle_put (value : Value) (realm : RealmId) :
    ((Value.link id).put name value realm : Evaluation E Unit).settle w =
      if w.hasProperty l.native name && !w.allowsWrite l name then
        (fail l.realm (.protectedWrite name)).settle w
      else
        Step.settle (do
          let x ← toHost value
          let tracks ← Step.read fun w => (w.realm l.realm).newProperties == .trackCreated
          hostSet l.realm l.native name x
          if !w.hasProperty l.native name && tracks then
            Step.write (World.addCreated id name)) w := by
  simp only [Value.put, Step.settle, hl]
  show Step.settle (ite ((!!w.hasProperty l.native name && !w.allowsWrite l name) = true) _ _) w
    = _
  rw [Bool.not_not]
  cases w.hasProperty l.native name && !w.allowsWrite l name <;> rfl

theorem settle_delete (realm : RealmId) :
    ((Value.link id).delete name realm : Evaluation E Bool).settle w =
      if w.hasProperty l.native name then
        if w.allowsWrite l name then
          Step.settle (do
            let deleted ← hostDelete l.realm l.native name
            if deleted then
              Step.write (World.removeCreated id name)
            return deleted) w
        else (fail l.realm (.protectedDelete name)).settle w
      else (.finished (.ok true), w) := by
  simp only [Value.delete, Step.settle, hl]
  show Step.settle (ite ((!w.hasProperty l.native name) = true) _ _) w = _
  cases w.hasProperty l.native name with
  | false => rfl
  | true =>
    show Step.settle (ite ((!w.allowsWrite l name) = true) _ _) w = _
    cases w.allowsWrite l name <;> rfl

theorem waits_member (realm : RealmId) :
    (((Value.link id).member name realm : Evaluation E Value).settle w).1.Waits ↔
      w.hasProperty l.native name = true ∧ w.allowsRead l name = true := by
  rw [settle_member hl]
  split
  · next hhas =>
    split
    · next hallowed => exact iff_of_true trivial ⟨hhas, hallowed⟩
    · next hdenied => exact iff_of_false not_false fun hboth => hdenied hboth.2
  · next hmissing => exact iff_of_false not_false fun hboth => hmissing hboth.1

theorem waits_put {value : Value} (hvalue : (w.toHost value).1.isSome = true) (realm : RealmId) :
    (((Value.link id).put name value realm : Evaluation E Unit).settle w).1.Waits ↔
      (w.hasProperty l.native name = true → w.allowsWrite l name = true) := by
  rw [settle_put hl]
  split
  · next hdenied =>
    simp only [Bool.and_eq_true, Bool.not_eq_true'] at hdenied
    exact iff_of_false not_false fun hwrite => by simp [hwrite hdenied.1] at hdenied
  · next hallowed =>
    refine iff_of_true ?_ fun hhas => by simpa [hhas] using hallowed
    rw [settle_toHost_bind]
    generalize w.toHost value = converted at hvalue
    obtain ⟨_ | x, w'⟩ := converted
    · cases hvalue
    · trivial

theorem waits_delete (realm : RealmId) :
    (((Value.link id).delete name realm : Evaluation E Bool).settle w).1.Waits ↔
      w.hasProperty l.native name = true ∧ w.allowsWrite l name = true := by
  rw [settle_delete hl]
  split
  · next hhas =>
    split
    · next hallowed => exact iff_of_true trivial ⟨hhas, hallowed⟩
    · next hdenied => exact iff_of_false not_false fun hboth => hdenied hboth.2
  · next hmissing => exact iff_of_false not_false fun hboth => hmissing hboth.1

end Link

/-! ## Access to tracked names -/

namespace MapHost.Tracks

variable {m : MapHost E host} {link : LinkId} {realm : RealmId} {created : NameSet} {w : World E}
  {name : String} (h : m.Tracks link realm created w) (realm' : RealmId)
include h

theorem waits_member :
    (((Value.link link).member name realm' : Evaluation E Value).settle w).1.Waits ↔
      m.Exists w name ∧ m.Readable created name := by
  obtain ⟨live, hl⟩ := h.linked
  rw [← h.hasProperty_iff, ← h.allowsRead_iff hl]
  exact Link.waits_member hl name realm'

theorem waits_put {value : Value} (hvalue : (w.toHost value).1.isSome = true) :
    (((Value.link link).put name value realm' : Evaluation E Unit).settle w).1.Waits ↔
      (m.Exists w name → m.Writable created name) := by
  obtain ⟨live, hl⟩ := h.linked
  rw [← h.hasProperty_iff, ← h.allowsWrite_iff hl]
  exact Link.waits_put hl name hvalue realm'

theorem waits_delete :
    (((Value.link link).delete name realm' : Evaluation E Bool).settle w).1.Waits ↔
      m.Exists w name ∧ m.Writable created name := by
  obtain ⟨live, hl⟩ := h.linked
  rw [← h.hasProperty_iff, ← h.allowsWrite_iff hl]
  exact Link.waits_delete hl name realm'

end MapHost.Tracks

namespace LinkRun

variable {m : StoreHost E host} {link : LinkId} {realm : RealmId} {created : NameSet}
  {run : LinkRun E} {name : String}

/-- What reaches the host object when an existing property of the name is read, written or deleted
    through the link or through a handle that was taken in the run. -/
structure AccessBy (m : MapHost E host) (link : LinkId) (created : NameSet) (run : LinkRun E)
    (realm : RealmId) (name : String) : Prop where
  member : (ValueOperation.member (.link link) name).Reaches realm (.hosted host) run.world ↔
    m.Readable created name
  put : ∀ value, (run.world.toHost value).1.isSome = true →
    ((ValueOperation.put (.link link) name value).Reaches realm (.hosted host) run.world ↔
      m.Writable created name)
  delete : (ValueOperation.delete (.link link) name).Reaches realm (.hosted host) run.world ↔
    m.Writable created name
  /-- A handle that is taken now is sealed if the property may not be read. -/
  refer : (run.world.reference (.link link) name).access = .sealed ↔ ¬ m.Readable created name
  get : ∀ r ∈ run.handles, r.name = name →
    ((ValueOperation.get r).Reaches realm (.hosted host) run.world ↔
      r.access ≠ .sealed ∧ m.Readable created name)
  set : ∀ r ∈ run.handles, r.name = name →
    ∀ value, (run.world.toHost value).1.isSome = true →
      ((ValueOperation.set r value).Reaches realm (.hosted host) run.world ↔
        r.access ≠ .sealed ∧ m.Writable created name)
  remove : ∀ r ∈ run.handles, r.name = name →
    ((ValueOperation.remove r).Reaches realm (.hosted host) run.world ↔
      r.access ≠ .sealed ∧ m.Writable created name)

theorem Accounts.accessBy (h : Accounts m.toMapHost link realm created run)
    (hname : m.Exists run.world name) (realm' : RealmId) :
    AccessBy m.toMapHost link created run realm' name := by
  have hn : run.world.native? (WrapperKind.link.value link) = some (.hosted host) :=
    h.tracks.linkNative?
  have reaches (op : ValueOperation) (hop : op.target? = some (.link link)) :
      op.Reaches realm' (.hosted host) run.world ↔
        ((op.step realm' : Evaluation E Reply).settle run.world).1.Waits :=
    ValueOperation.reaches_iff_waits (k := .link) hop hn realm'
  have member {name : String} (hname : m.Exists run.world name) :
      (((Value.link link).member name realm' : Evaluation E Value).settle run.world).1.Waits ↔
        m.Readable created name :=
    (h.tracks.waits_member realm').trans (and_iff_right hname)
  have put {name : String} (hname : m.Exists run.world name) {value : Value}
      (hvalue : (run.world.toHost value).1.isSome = true) :
      (((Value.link link).put name value realm' : Evaluation E Unit).settle run.world).1.Waits ↔
        m.Writable created name :=
    (h.tracks.waits_put realm' hvalue).trans (forall_prop_of_true hname)
  have delete {name : String} (hname : m.Exists run.world name) :
      (((Value.link link).delete name realm' : Evaluation E Bool).settle run.world).1.Waits ↔
        m.Writable created name :=
    (h.tracks.waits_delete realm').trans (and_iff_right hname)
  refine ⟨?_, fun value hvalue => ?_, ?_, ?_, fun r hr heq => ?_, fun r hr heq value hvalue => ?_,
    fun r hr heq => ?_⟩
  · exact (reaches _ rfl).trans (Step.waits_map.trans (member hname))
  · exact (reaches _ rfl).trans (Step.waits_map.trans (put hname hvalue))
  · exact (reaches _ rfl).trans (Step.waits_map.trans (delete hname))
  · exact h.tracks.reference_eq_sealed_iff.trans (and_iff_right hname)
  · subst heq
    have hbase : r.base = .link link := (h.handles r hr).base
    refine (reaches (.get r) (congrArg some hbase)).trans (Step.waits_map.trans ?_)
    rw [Reference.get, Step.waits_unless, hbase, member hname]
  · subst heq
    have hbase : r.base = .link link := (h.handles r hr).base
    refine (reaches (.set r value) (congrArg some hbase)).trans (Step.waits_map.trans ?_)
    rw [Reference.set, Step.waits_unless, hbase, put hname hvalue, not_not]
    -- a handle that may only be read belongs to a name that may not be written
    refine and_congr_left fun hwritable => ⟨fun ha hsealed => ?_, fun hsealed => ?_⟩
    · rw [ha] at hsealed
      cases hsealed
    · cases ha : r.access with
      | allowed => rfl
      | readOnly => exact absurd hwritable ((h.handles r hr).readOnly ha).2
      | sealed => exact absurd ha hsealed
  · subst heq
    have hbase : r.base = .link link := (h.handles r hr).base
    refine (reaches (.remove r) (congrArg some hbase)).trans (Step.waits_map.trans ?_)
    rw [Reference.delete, Step.waits_unless, hbase, delete hname]

/-- After every run on a link that started without created names: the created names are those whose
    latest creation has not been followed by a successful delete, and they exist. An access to an
    existing name reaches the host object just if the name is on the list in question or was
    created, unless it is made through a sealed handle, which lets nothing through. -/
theorem tracked_access_exact {w : World E} (h : m.Tracks link realm ∅ w)
    (events : List LinkEvent) :
    let run := (start w).follow host link events
    ∃ created live, run.world.links[link]? = some ⟨realm, .hosted host, created, live⟩ ∧
      (∀ name, name ∈ created ↔ Entry.Stands run.history name) ∧
      (∀ name ∈ created, m.Exists run.world name) ∧
      (∀ name, m.Exists run.world name →
        ∀ realm', AccessBy m.toMapHost link created run realm' name) ∧
      ∀ r ∈ run.handles, r.access = .sealed → ∀ value (op : ValueOperation),
        op ∈ [.get r, .set r value, .remove r] →
          ∀ realm', ¬ op.Reaches realm' (.hosted host) run.world := by
  intro run
  obtain ⟨created, haccounts⟩ := accounts_follow (accounts_start h) events
  obtain ⟨live, hl⟩ := haccounts.tracks.linked
  refine ⟨created, live, hl, fun _ => haccounts.standing, haccounts.exist,
    fun name hname realm' => haccounts.accessBy hname realm', ?_⟩
  intro r hr hsealed value op hop realm'
  exact ValueOperation.not_reaches_sealed hsealed hop realm' _ run.world

end LinkRun

namespace Session

open LinkRun

theorem tracks_account : (storeHost 0 account.policy).Tracks 0 0 ∅ accountWorld where
  valid := rfl
  linked := ⟨true, rfl⟩
  tracking := rfl

/-- A name is created for good, another one is abandoned, and a third one is deleted again through a
    handle. -/
def accountEvents : List LinkEvent :=
  let answered : Ending := .answered [.collect] (.ok .undefined)
  [.operate 0 (.put (.link 0) "memo" .null) answered,
    .operate 0 (.put (.link 0) "draft" .null) (.abandoned []),
    .operate 0 (.put (.link 0) "plan" .null) answered,
    .operate 0 (.refer (.link 0) "plan") answered,
    .operate 0 (.remove ⟨.link 0, "plan", .allowed⟩) answered]

theorem tracked_access_exact_account :
    let m := storeHost 0 account.policy
    let run := (start accountWorld).follow 0 0 accountEvents
    m.Tracks 0 0 ∅ accountWorld ∧
      run.world.links[0]?.map (·.created.names) = some ["memo"] ∧
      Entry.Stands run.history "memo" ∧ ¬ Entry.Stands run.history "plan" ∧
      m.Exists run.world "memo" ∧ m.Exists run.world "balance" ∧
      (ValueOperation.delete (.link 0) "memo").Reaches 0 (.hosted 0) run.world ∧
      ¬ (ValueOperation.delete (.link 0) "balance").Reaches 0 (.hosted 0) run.world := by
  have hnames : ((start accountWorld).follow 0 0 accountEvents).world.links[0]?.map
      (·.created.names) = some ["memo"] := by decide +kernel
  have hbalance : (storeHost 0 account.policy).Exists
      ((start accountWorld).follow 0 0 accountEvents).world "balance" := by decide +kernel
  obtain ⟨created, live, hl, hstanding, hexist, haccess, -⟩ :=
    tracked_access_exact tracks_account accountEvents
  have hcreated : created.names = ["memo"] := by
    rw [hl] at hnames
    exact Option.some_inj.mp hnames
  have hmem : ∀ name, name ∈ created ↔ name ∈ ["memo"] := fun name => by
    rw [NameSet.mem_def, hcreated]
  have hmemo : "memo" ∈ created := (hmem "memo").mpr (by decide)
  refine ⟨tracks_account, hnames, (hstanding "memo").mp hmemo, fun h => ?_, hexist "memo" hmemo,
    hbalance, (haccess "memo" (hexist "memo" hmemo) 0).delete.mpr (.inr hmemo), fun h => ?_⟩
  · exact absurd ((hmem "plan").mp ((hstanding "plan").mpr h)) (by decide)
  · rcases (haccess "balance" hbalance 0).delete.mp h with ⟨policy, hp, hlisted⟩ | hcreated
    · cases hp
      exact absurd hlisted (by decide)
    · exact absurd ((hmem "balance").mp hcreated) (by decide)

/-- A slot that can be written but not read. -/
def dropbox : Record where
  label := "dropbox"
  properties := ⟨[("slot", .null)]⟩
  policy := some ⟨none, some ["slot"], none, none, none⟩
  kind := .active ⟨false, [], ⟨∅, ∅, ∅⟩, none, none⟩

/-- A world with a link on the slot, in a realm that tracks new properties. -/
def dropboxWorld : World Session :=
  { World.empty (ofRecords #[dropbox]) with
    links := #[⟨0, .hosted 0, ∅, true⟩]
    realms := #[.fresh .trackCreated]
    held := [.value (.link 0)] }

/-- The name is on the write list, and a write through the link reaches the host object, but a write
    through the handle that is taken on it does not. -/
theorem write_listed_sealed :
    let m := storeHost 0 dropbox.policy
    let run := (start dropboxWorld).follow 0 0
      [.operate 0 (.refer (.link 0) "slot") (.abandoned [])]
    m.Tracks 0 0 ∅ dropboxWorld ∧ m.Exists run.world "slot" ∧ m.WriteListed "slot" ∧
      (ValueOperation.put (.link 0) "slot" .null).Reaches 0 (.hosted 0) run.world ∧
      ∃ r ∈ run.handles, r.name = "slot" ∧
        ¬ (ValueOperation.set r .null).Reaches 0 (.hosted 0) run.world := by
  intro m run
  have htracks : m.Tracks 0 0 ∅ dropboxWorld := ⟨rfl, ⟨true, rfl⟩, rfl⟩
  have haccounts : ∃ created, Accounts m.toMapHost 0 0 created run :=
    accounts_follow (accounts_start htracks) _
  obtain ⟨created, haccounts⟩ := haccounts
  have hexists : m.Exists run.world "slot" := by decide +kernel
  have hlisted : m.WriteListed "slot" := ⟨_, rfl, by decide⟩
  have haccess := haccounts.accessBy hexists 0
  have hhandle : (⟨.link 0, "slot", .sealed⟩ : Reference) ∈ run.handles := by decide +kernel
  refine ⟨htracks, hexists, hlisted, ?_, _, hhandle, rfl, fun h => ?_⟩
  · exact (haccess.put .null (by decide +kernel)).mpr (.inl hlisted)
  · exact ((haccess.set _ hhandle rfl .null (by decide +kernel)).mp h).1 rfl

end Session

end ScriptSandbox
