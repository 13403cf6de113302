import Mathlib.Data.List.Nodup
import ScriptSandbox.World.Cache

/-
  Identity caches as sets of entries.

  A cache is distinct when no host object has two entries. Then looking up is membership
  (`find?_eq_some_iff`), and every operation keeps it so. Sweeping and purging take away nothing
  that is alive, and an insertion takes away besides only what it replaces (`mem_insert_of_alive`).
  In a cache that need not be distinct they keep what a live wrapper is looked up by
  (`lookup_makeRoom`, `lookup_insert_of_ne`).
  The live entries are as many as the live wrappers that have an entry (`liveCount_eq_length`).
-/

namespace ScriptSandbox.IdentityCache

variable {alive : Nat → Bool} {c : IdentityCache} {key : NativeKey} {wrapper : Nat}
  {e : NativeKey × Nat}

/-- No host object has two entries. -/
def Distinct (c : IdentityCache) : Prop := (c.entries.map Prod.fst).Nodup

theorem distinct_empty : Distinct empty := List.nodup_nil

theorem distinct_of_sublist {c' : IdentityCache} (h : c.Distinct)
    (hs : c'.entries.Sublist c.entries) : c'.Distinct :=
  (hs.map Prod.fst).nodup h

/-! ## Looking up -/

theorem lookup_of_mem {entries : List (NativeKey × Nat)} (hd : (entries.map Prod.fst).Nodup)
    (h : (key, wrapper) ∈ entries) : lookup key entries = some wrapper := by
  induction entries with
  | nil => cases h
  | cons e rest ih =>
    obtain ⟨k, x⟩ := e
    rw [List.map_cons, List.nodup_cons] at hd
    rw [lookup]
    rcases List.mem_cons.mp h with heq | hrest
    · cases heq
      rw [if_pos rfl]
    · -- the key stands further back, so it is not the one in front
      have hk : k ≠ key := by
        rintro rfl
        have hmem : k ∈ rest.map Prod.fst := List.mem_map_of_mem (f := Prod.fst) hrest
        exact hd.1 hmem
      rw [if_neg hk]
      exact ih hd.2 hrest

theorem find?_eq_some_iff (hd : c.Distinct) :
    c.find? alive key = some wrapper ↔ (key, wrapper) ∈ c.entries ∧ alive wrapper = true := by
  rw [find?, Option.filter_eq_some_iff]
  constructor
  · rintro ⟨hl, ha⟩
    exact ⟨mem_of_lookup hl, ha⟩
  · rintro ⟨hm, ha⟩
    exact ⟨lookup_of_mem hd hm, ha⟩

theorem find?_eq_none_iff (hd : c.Distinct) :
    c.find? alive key = none ↔ ∀ x, (key, x) ∈ c.entries → alive x = false := by
  rw [Option.eq_none_iff_forall_ne_some]
  simp only [ne_eq, find?_eq_some_iff hd, not_and, Bool.not_eq_true]

/-! ## Sweeping, purging and inserting -/

theorem mem_purge : e ∈ (c.purge alive).1.entries ↔ e ∈ c.entries ∧ alive e.2 = true :=
  List.mem_filter

theorem purge_sublist : (c.purge alive).1.entries.Sublist c.entries := List.filter_sublist

theorem makeRoom_sublist : (c.makeRoom alive).entries.Sublist c.entries := by
  unfold makeRoom
  split
  · exact purge_sublist
  · exact List.Sublist.refl _

theorem mem_makeRoom_of_alive (h : e ∈ c.entries) (ha : alive e.2 = true) :
    e ∈ (c.makeRoom alive).entries := by
  unfold makeRoom
  split
  · exact mem_purge.mpr ⟨h, ha⟩
  · exact h

theorem mem_insert_self : (key, wrapper) ∈ (c.insert alive key wrapper).entries :=
  List.mem_cons_self

theorem mem_insert_of_alive (h : e ∈ c.entries) (ha : alive e.2 = true) (hk : e.1 ≠ key) :
    e ∈ (c.insert alive key wrapper).entries := by
  refine List.mem_cons_of_mem _ (List.mem_filter.mpr ⟨mem_makeRoom_of_alive h ha, ?_⟩)
  exact decide_eq_true hk

theorem Distinct.insert (h : c.Distinct) : (c.insert alive key wrapper).Distinct := by
  have hrest : Distinct { c.makeRoom alive with
      entries := (c.makeRoom alive).entries.filter fun e => e.1 ≠ key } :=
    distinct_of_sublist h (List.filter_sublist.trans makeRoom_sublist)
  refine List.nodup_cons.mpr ⟨fun hmem => ?_, hrest⟩
  obtain ⟨e, he, hkey⟩ := List.mem_map.mp hmem
  have hne : e.1 ≠ key := of_decide_eq_true (List.mem_filter.mp he).2
  exact hne hkey

/-! ## Keeping the wrapper that is looked up -/

theorem find?_eq_some : c.find? alive key = some wrapper ↔
    lookup key c.entries = some wrapper ∧ alive wrapper = true := Option.filter_eq_some_iff

theorem lookup_filter {p : NativeKey × Nat → Bool} {entries : List (NativeKey × Nat)}
    (h : lookup key entries = some wrapper) (hp : p (key, wrapper) = true) :
    lookup key (entries.filter p) = some wrapper := by
  induction entries with
  | nil => cases h
  | cons e rest ih =>
    obtain ⟨k, x⟩ := e
    rw [lookup] at h
    by_cases hk : k = key
    · rw [if_pos hk] at h
      cases h
      rw [List.filter_cons_of_pos (hk ▸ hp), lookup, if_pos hk]
    · rw [if_neg hk] at h
      rw [List.filter_cons]
      split
      · rw [lookup, if_neg hk]
        exact ih h
      · exact ih h

theorem lookup_makeRoom (h : lookup key c.entries = some wrapper) (ha : alive wrapper = true) :
    lookup key (c.makeRoom alive).entries = some wrapper := by
  unfold makeRoom
  split
  · exact lookup_filter h ha
  · exact h

theorem lookup_insert_self : lookup key (c.insert alive key wrapper).entries = some wrapper :=
  if_pos rfl

theorem lookup_insert_of_ne {key' : NativeKey} {wrapper' : Nat}
    (h : lookup key c.entries = some wrapper) (ha : alive wrapper = true) (hk : key' ≠ key) :
    lookup key (c.insert alive key' wrapper').entries = some wrapper := by
  refine (if_neg hk).trans (lookup_filter (lookup_makeRoom h ha) ?_)
  exact decide_eq_true (Ne.symm hk)

/-! ## Counting -/

/-- If no wrapper has two entries, there are as many live entries as live wrappers with an entry. -/
theorem liveCount_eq_length (hd : c.Distinct)
    (hkey : ∀ {k k' x}, (k, x) ∈ c.entries → (k', x) ∈ c.entries → k = k') {wrappers : List Nat}
    (hn : wrappers.Nodup)
    (hmem : ∀ x, x ∈ wrappers ↔ (∃ k, (k, x) ∈ c.entries) ∧ alive x = true) :
    c.liveCount alive = wrappers.length := by
  have hlive : ((c.entries.filter fun e => alive e.2).map Prod.snd).Nodup := by
    refine List.Nodup.map_on ?_ ((List.Nodup.of_map Prod.fst hd).filter _)
    rintro ⟨k, x⟩ hx ⟨k', x'⟩ hx' (rfl : x = x')
    rw [hkey (List.mem_filter.mp hx).1 (List.mem_filter.mp hx').1]
  have hperm : ((c.entries.filter fun e => alive e.2).map Prod.snd).Perm wrappers := by
    refine (List.perm_ext_iff_of_nodup hlive hn).mpr fun x => ?_
    rw [hmem x, List.mem_map]
    constructor
    · rintro ⟨⟨k, x⟩, he, rfl⟩
      obtain ⟨hin, ha⟩ := List.mem_filter.mp he
      exact ⟨⟨k, hin⟩, ha⟩
    · rintro ⟨⟨k, hin⟩, ha⟩
      exact ⟨(k, x), List.mem_filter.mpr ⟨hin, ha⟩, rfl⟩
  rw [liveCount, ← hperm.length_eq, List.length_map]

end ScriptSandbox.IdentityCache
