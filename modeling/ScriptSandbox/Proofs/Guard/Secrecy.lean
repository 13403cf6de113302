import Mathlib.Data.List.Forall2
import ScriptSandbox.Session.Basic
import ScriptSandbox.Proofs.World.Blind

/-
  Hosts with secrets.

  A secret is the value of a property whose name is on no read list. `Secrecy` says of an embedding
  what it takes for secrets to have no effect but by being read: two states that differ in secrets
  answer every other question alike, and go on to differ in secrets only. What a secret keeps alive
  is left open. Sessions of records are such embeddings, whatever their secrets are
  (`Session.secrecy`).
-/

namespace ScriptSandbox

variable {E : Type}

/-- When two states of an embedding may stand for each other, and when they have the same value for
    a property of a host object. -/
structure Likeness (E : Type) where
  alike : E → E → Prop
  agree : HostId → String → E → E → Prop

/-- Two states are still alike later, and agree wherever they did. -/
def Likeness.Later (r : Likeness E) (e e' f f' : E) : Prop :=
  r.alike f f' ∧ ∀ {id name}, r.agree id name e e' → r.agree id name f f'

/-- Hosts that keep values under names. States that are alike have the same names, displays and
    policies, they differ only in values that the policies do not let a link read, and no access but
    the reading of such a value makes a difference. -/
structure Secrecy (E : Type) [Embedding E] extends Likeness E where
  shows : ∀ {e e'}, alike e e' → World.ShowsAlike e e'
  has_eq : ∀ {e e'} id name, alike e e' → Embedding.has e id name = Embedding.has e' id name
  unreadable : ∀ {e e' id name}, alike e e' → ¬ agree id name e e' →
    Embedding.has e id name = true ∧
      ∀ {policy}, Embedding.policy e id = some policy → policy.allowsRead name = false
  get : ∀ {e e'} id name, alike e e' → agree id name e e' →
    (Embedding.get id name e).1 = (Embedding.get id name e').1 ∧
      toLikeness.Later e e' (Embedding.get id name e).2 (Embedding.get id name e').2
  set : ∀ {e e'} id name value, alike e e' →
    (Embedding.set id name value e).1 = (Embedding.set id name value e').1 ∧
      toLikeness.Later e e' (Embedding.set id name value e).2 (Embedding.set id name value e').2
  delete : ∀ {e e'} id name, alike e e' →
    (Embedding.delete id name e).1 = (Embedding.delete id name e').1 ∧
      toLikeness.Later e e' (Embedding.delete id name e).2 (Embedding.delete id name e').2

variable [Embedding E]

/-! ## Tables -/

/-- The tables have the same names in the same order, with values as `rel` says for each name. -/
def Table.Alike {α : Type} (rel : String → α → α → Prop) (t u : Table α) : Prop :=
  List.Forall₂ (fun a b => a.1 = b.1 ∧ rel a.1 a.2 b.2) t.entries u.entries

namespace Table.Alike

variable {α : Type} {rel : String → α → α → Prop} {t u : Table α}

theorem find? (h : t.Alike rel u) (name : String) :
    (t.find? name = none ∧ u.find? name = none) ∨
      ∃ v v', t.find? name = some v ∧ u.find? name = some v' ∧ rel name v v' := by
  obtain ⟨es⟩ := t
  obtain ⟨fs⟩ := u
  simp only [Alike] at h
  simp only [Table.find?]
  induction h with
  | nil => exact .inl ⟨rfl, rfl⟩
  | @cons a b es fs hab _ ih =>
    obtain ⟨n, v⟩ := a
    obtain ⟨m, v'⟩ := b
    obtain ⟨rfl, hv⟩ := hab
    simp only [lookup]
    split
    · next hn => exact .inr ⟨v, v', rfl, rfl, hn ▸ hv⟩
    · exact ih

theorem contains_eq (h : t.Alike rel u) (name : String) : t.contains name = u.contains name := by
  rcases h.find? name with ⟨ht, hu⟩ | ⟨v, v', ht, hu, -⟩
  · rw [contains, contains, ht, hu]
  · rw [contains, contains, ht, hu, Option.isSome_some, Option.isSome_some]

theorem insert (h : t.Alike rel u) {name : String} {v : α} (hv : rel name v v) :
    (t.insert name v).Alike rel (u.insert name v) := by
  obtain ⟨es⟩ := t
  obtain ⟨fs⟩ := u
  simp only [Alike, Table.insert] at h ⊢
  induction h with
  | nil => exact .cons ⟨rfl, hv⟩ .nil
  | @cons a b es fs hab hes ih =>
    obtain ⟨n, x⟩ := a
    obtain ⟨m, y⟩ := b
    obtain ⟨rfl, hxy⟩ := hab
    simp only [write]
    split
    · next hn => exact .cons ⟨rfl, hn ▸ hv⟩ hes
    · exact .cons ⟨rfl, hxy⟩ ih

theorem erase (h : t.Alike rel u) (name : String) : (t.erase name).Alike rel (u.erase name) := by
  obtain ⟨es⟩ := t
  obtain ⟨fs⟩ := u
  simp only [Alike, Table.erase] at h ⊢
  induction h with
  | nil => exact .nil
  | @cons a b es fs hab hes ih =>
    obtain ⟨n, x⟩ := a
    obtain ⟨m, y⟩ := b
    obtain ⟨rfl, hxy⟩ := hab
    simp only [List.filter_cons]
    split
    · exact .cons ⟨rfl, hxy⟩ ih
    · exact ih

end Table.Alike

/-! ## Records -/

namespace Record

/-- The name is on no read list. -/
def Unreadable (r : Record) (name : String) : Prop :=
  ∀ {policy}, r.policy = some policy → policy.allowsRead name = false

/-- The records are the same but for values that cannot be read. -/
structure Alike (r s : Record) : Prop where
  label : r.label = s.label
  policy : r.policy = s.policy
  kind : r.kind = s.kind
  properties : r.properties.Alike (fun name v v' => v = v' ∨ r.Unreadable name) s.properties

variable {r s : Record}

/-- The records have the same value under a name. -/
def Agree (name : String) (r s : Record) : Prop := r.properties.find? name = s.properties.find? name

theorem Alike.of_not_agree (h : r.Alike s) {name : String} (hn : ¬ r.Agree name s) :
    r.properties.contains name = true ∧ r.Unreadable name := by
  rcases h.properties.find? name with ⟨hr, hs⟩ | ⟨v, v', hr, hs, hv⟩
  · exact absurd (hr.trans hs.symm) hn
  · refine ⟨by simp only [Table.contains, hr, Option.isSome_some], ?_⟩
    rcases hv with rfl | hv
    · exact absurd (hr.trans hs.symm) hn
    · exact hv

/-- A method that changes the records alike. -/
def Steady {α : Type} (f : Record → α × Record) : Prop :=
  ∀ {r s : Record}, r.Alike s → (f r).1 = (f s).1 ∧ (f r).2.Alike (f s).2 ∧
    ∀ {name}, r.Agree name s → (f r).2.Agree name (f s).2

theorem Alike.define (h : r.Alike s) (name : String) (value : HostValue) :
    (r.define name value).Alike (s.define name value) :=
  ⟨h.label, h.policy, h.kind, h.properties.insert (.inl rfl)⟩

theorem Agree.define {other : String} (h : r.Agree other s) (name : String) (value : HostValue) :
    (r.define name value).Agree other (s.define name value) := by
  simp only [Agree, Record.define, Table.find?_insert] at h ⊢
  rw [h]

theorem Alike.conduct?_eq (h : r.Alike s) : r.conduct? = s.conduct? := by
  simp only [conduct?, h.kind]

theorem Alike.refusal?_eq (h : r.Alike s) (access : Refusals → Table HostError)
    (name : String) : r.refusal? access name = s.refusal? access name := by
  simp only [refusal?, h.conduct?_eq]

theorem steady_set (name : String) (value : HostValue) :
    Steady (Record.set name value) := by
  intro r s h
  simp only [Record.set, ← h.conduct?_eq, ← h.refusal?_eq]
  split
  · exact ⟨rfl, h, id⟩
  · exact ⟨rfl, h, id⟩
  · split
    · exact ⟨rfl, h, id⟩
    · exact ⟨rfl, h.define name value, fun ha => ha.define name value⟩

theorem steady_delete (name : String) : Steady (Record.delete name) := by
  intro r s h
  simp only [Record.delete, ← h.conduct?_eq, ← h.refusal?_eq]
  split
  · exact ⟨rfl, h, id⟩
  · exact ⟨rfl, h, id⟩
  · split
    · exact ⟨rfl, h, id⟩
    · refine ⟨by rw [h.properties.contains_eq],
        ⟨h.label, h.policy, h.kind, h.properties.erase name⟩, fun {other} ha => ?_⟩
      by_cases hn : other = name
      · subst hn
        simp only [Agree, Table.find?_erase_self]
      · simp only [Agree, Table.find?_erase_ne _ hn]
        exact ha

end Record

/-! ## Sessions -/

namespace Session

/-- The sessions are the same but for records that are alike. -/
structure Alike (s t : Session) : Prop where
  same : t = { s with records := t.records }
  size : s.records.size = t.records.size
  records : ∀ id, (s.record id).Alike (t.record id)

/-- The sessions have the same value under a name of a record. -/
def Agree (id : HostId) (name : String) (s t : Session) : Prop :=
  (s.record id).Agree name (t.record id)

variable {s t : Session}

theorem Alike.onRecord {α : Type} {f : Record → α × Record} (hf : Record.Steady f)
    (h : s.Alike t) (id : HostId) :
    (Session.onRecord id f s).1 = (Session.onRecord id f t).1 ∧
      (Session.onRecord id f s).2.Alike (Session.onRecord id f t).2 ∧
      ∀ {host name}, Agree host name s t →
        Agree host name (Session.onRecord id f s).2 (Session.onRecord id f t).2 := by
  obtain ⟨he, -, -⟩ := hf (h.records id)
  refine ⟨he, ⟨?_, ?_, fun host => ?_⟩, fun {host name} ha => ?_⟩
  · rw [h.same]
    rfl
  · simp only [Session.onRecord, Array.size_setIfInBounds, h.size]
  · simp only [record_onRecord, h.size]
    split
    · exact (hf (h.records host)).2.1
    · exact h.records host
  · simp only [Agree, record_onRecord, h.size]
    split
    · exact (hf (h.records host)).2.2 ha
    · exact ha

/-- Sessions of records keep secrets. -/
def secrecy : Secrecy Session where
  alike := Alike
  agree := Agree
  shows h := ⟨fun id => (h.records id).label, fun id => (h.records id).policy⟩
  has_eq id name h := (h.records id).properties.contains_eq name
  unreadable h hn := (h.records _).of_not_agree hn
  get {s t} id name h ha := by
    refine ⟨?_, h, fun ha => ha⟩
    have hn : (s.record id).properties.find? name = (t.record id).properties.find? name := ha
    show (s.record id).get name = (t.record id).get name
    simp only [Record.get, (h.records id).refusal?_eq, hn]
  set id name value h := h.onRecord (Record.steady_set name value) id
  delete id name h := h.onRecord (Record.steady_delete name) id

end Session

end ScriptSandbox
