import ScriptSandbox.Proofs.Scope.Handover

/-
  No reference is lost.

  A context accounts for a name at a site if its scope lists the name as captured or free, if it
  binds the name throughout, or if a block of it that is open at the site does. While the walk is
  under way, the names in the frame of an open context count too (`Pass.Accounts`); nothing that is
  accounted for is lost on the way into a node or out of it (`accounts_begin`, `accounts_finish`).
  So at the end the context of every reference accounts for its name, and whatever the scope of a
  context lists is accounted for by the enclosing context (`references_accounted`).
-/

namespace ScriptSandbox.Scope

open Syntax

variable {d : Document} {t : Tree} {tracking : Bool} {k : Nat} {around path : List Node}
  {p : Pass} {n : Node} {name : String} {id : NodeId} {e : Enclosure}

/-- A name leads outward from a context: its scope lists the name as captured or free. -/
def ScopeTable.Outward (table : ScopeTable) (id : NodeId) (name : String) : Prop :=
  table.Has id fun s => name ∈ s.upvars ∨ name ∈ s.freevars

/-- A context around a site accounts for a name there. -/
def ScopeTable.Accounts (tracking : Bool) (table : ScopeTable) (e : Enclosure) (name : String) :
    Prop :=
  table.Outward e.context.id name ∨ e.Owns tracking table name

/-- The frame of an open context accounts for the names in it as well. -/
def Pass.Accounts (tracking : Bool) (p : Pass) (e : Enclosure) (name : String) : Prop :=
  p.Refers e.context.id name ∨ p.Captures e.context.id name ∨ p.table.Accounts tracking e name

/-! ## Nothing is lost -/

theorem FunctionScope.binds_note {s : FunctionScope} (parent : Option Node)
    (h : s.binds name = true) : (s.note tracking parent n).binds name = true := by
  rw [binds_iff] at h ⊢
  refine h.imp (fun h => ?_) fun h => ?_
  · have hrecorded : FunctionScope.Recorded tracking .var := trivial
    obtain ⟨hmakes, hkeep⟩ := find?_note (n := n) hrecorded parent s name
    by_cases hm : Makes .var parent n name
    · exact Option.isSome_iff_exists.mpr ⟨_, hmakes hm⟩
    · exact (congrArg Option.isSome (hkeep hm)).trans h
  · rwa [(sameContext_note tracking parent n s).bindsArguments]

namespace Walking

section Begin

variable (ht : Tree.ofDocument d = .ok t) (hn : (n, around) ∈ t.sites)
  (h : Walking t tracking n.id around p) (parent : Option Node)

include ht hn h

theorem bindsAt_begin (hid : id ≠ n.id) (hb : p.table.BindsAt id name) :
    (p.begin tracking parent n).table.BindsAt id name := by
  obtain ⟨s, hs, hb⟩ := hb
  unfold ScopeTable.BindsAt ScopeTable.Has
  rw [h.functionScope?_begin ht hn parent hid, hs]
  split
  · exact ⟨_, rfl, s.binds_note parent hb⟩
  · exact ⟨s, rfl, hb⟩

/-- What does not depend on the declarations of a context stays as it is on the way into a node
    below. -/
theorem has_begin {P : FunctionScope → Prop} (hP : ∀ s s', s.SameContext s' → (P s ↔ P s'))
    (hid : id ≠ n.id) : (p.begin tracking parent n).table.Has id P ↔ p.table.Has id P := by
  unfold ScopeTable.Has
  rw [h.functionScope?_begin ht hn parent hid]
  split
  · cases p.table.functionScope? id with
    | none => simp
    | some s => simp [hP _ _ (FunctionScope.sameContext_note tracking parent n s)]
  · rfl

theorem outward_begin (hid : id ≠ n.id) :
    (p.begin tracking parent n).table.Outward id name ↔ p.table.Outward id name :=
  h.has_begin ht hn parent (fun s s' hs => by rw [hs.upvars, hs.freevars]) hid

/-- A context that has just been entered has what its blank scope has. -/
theorem has_begin_context {P : FunctionScope → Prop}
    (hP : ∀ s s', s.SameContext s' → (P s ↔ P s')) (hcontext : n.kind.isContext = true) :
    (p.begin tracking parent n).table.Has n.id P ↔
      P (Pass.freshScope (p.frames.head?.map (·.scope)) n) := by
  unfold ScopeTable.Has
  rw [functionScope?_begin_context hcontext h (Tree.id_lt_size ht hn), if_pos rfl]
  simp [hP _ _ (Pass.sameContext_entered tracking (p.frames.head?.map (·.scope)) n)]

/-- What a blank scope lacks, no context gains on the way into a node. -/
theorem has_of_begin {P : FunctionScope → Prop} (hP : ∀ s s', s.SameContext s' → (P s ↔ P s'))
    (hblank : ∀ parent, ¬ P (Pass.freshScope parent n)) {c : Node} {above : List Node}
    (hc : (c, above) ∈ t.sites) (hk : c.kind.isContext = true)
    (hbegin : (p.begin tracking parent n).table.Has c.id P) : p.table.Has c.id P := by
  by_cases hid : c.id = n.id
  · cases Tree.site_unique ht hc hn hid
    exact absurd ((h.has_begin_context ht hn parent hP hk).mp hbegin) (hblank _)
  · exact (h.has_begin ht hn parent hP hid).mp hbegin

theorem not_outward_begin (hcontext : n.kind.isContext = true) :
    ¬ (p.begin tracking parent n).table.Outward n.id name := by
  rw [ScopeTable.Outward, h.has_begin_context ht hn parent
    (fun s s' hs => by rw [hs.upvars, hs.freevars]) hcontext]
  exact not_or.mpr ⟨List.not_mem_nil, List.not_mem_nil⟩

theorem accounts_begin (hid : e.context.id ≠ n.id) (ha : p.Accounts tracking e name) :
    (p.begin tracking parent n).Accounts tracking e name := by
  rcases ha with ha | ha | ha | ha | ha
  · exact .inl ((h.refers_begin ht hn parent).mpr (.inl ha))
  · exact .inr (.inl ((h.captures_begin ht hn parent).mpr (.inl ha)))
  · exact .inr (.inr (.inl ((h.outward_begin ht hn parent hid).mpr ha)))
  · exact .inr (.inr (.inr (.inl ha)))
  · exact .inr (.inr (.inr (.inr (h.bindsAt_begin ht hn parent hid ha))))

/-- The nearest context accounts for a reference. -/
theorem accounts_reference (href : n.reference? = some name) {es : List Enclosure}
    (he : enclosures around = e :: es) :
    (p.begin tracking parent n).Accounts tracking e name := by
  by_cases howned : BlockOwned tracking p.table name (enclosures around)
  · rw [he] at howned
    rcases howned with hblock | ⟨hbinds, howned⟩
    · exact .inr (.inr (.inr (.inl hblock)))
    · by_cases hblock : e.BlockBinds tracking name
      · exact .inr (.inr (.inr (.inl hblock)))
      · refine .inr (.inl ((h.captures_begin ht hn parent).mpr (.inr ⟨href, es, ?_, howned⟩)))
        exact he ▸ .leaves (not_or.mpr ⟨hblock, hbinds⟩)
  · refine .inl ((h.refers_begin ht hn parent).mpr (.inr ⟨href, ?_, howned⟩))
    rw [← head?_enclosures, he]
    rfl

/-- What is captured through a context is accounted for by the enclosing one. -/
theorem accounts_captured (href : n.reference? = some name) {beyond : List Enclosure}
    (hescapes : Escapes tracking p.table name (enclosures around) id (e :: beyond))
    (howned : BlockOwned tracking p.table name (e :: beyond)) :
    (p.begin tracking parent n).Accounts tracking e name := by
  by_cases hblock : e.BlockBinds tracking name
  · exact .inr (.inr (.inr (.inl hblock)))
  · obtain ⟨hbinds, howned⟩ := howned.resolve_left hblock
    refine .inr (.inl ((h.captures_begin ht hn parent).mpr (.inr ⟨href, beyond, ?_, howned⟩)))
    exact hescapes.next (not_or.mpr ⟨hblock, hbinds⟩)

end Begin

section Finish

theorem bindsAt_finish (h : Walking t tracking k (n :: around) p)
    (hb : p.table.BindsAt id name) : (p.finish tracking n).table.BindsAt id name := by
  obtain ⟨s, hs, hb⟩ := hb
  obtain ⟨upvars, freevars, hs⟩ := h.functionScope?_finish hs
  exact ⟨_, hs, hb⟩

theorem has_finish_of_ne (h : Walking t tracking k (n :: around) p)
    (hid : n.kind.isContext = true → id ≠ n.id) {P : FunctionScope → Prop} :
    (p.finish tracking n).table.Has id P ↔ p.table.Has id P := by
  unfold ScopeTable.Has
  rw [h.functionScope?_finish_of_ne hid]

variable (ht : Tree.ofDocument d = .ok t) (hn : (n, around) ∈ t.sites) (hlt : n.id < k)
  (h : Walking t tracking k (n :: around) p)

include ht hn hlt h

/-- What leads outward from a context that is left. -/
theorem outward_finish (hcontext : n.kind.isContext = true) :
    (p.finish tracking n).table.Outward n.id name ↔
      p.Captures n.id name ∨ p.Refers n.id name ∧ ¬ p.table.BindsAt n.id name := by
  rw [ScopeTable.Outward, ScopeTable.has_or, h.has_upvars_finish ht hn hcontext hlt,
    h.has_freevars_finish ht hn hcontext hlt, List.forall_mem_cons]
  constructor
  · rintro ((hcaptured | ⟨href, hown, -⟩) | ⟨href, hown, -⟩)
    · exact .inl hcaptured
    · exact .inr ⟨href, hown⟩
    · exact .inr ⟨href, hown hcontext⟩
  · rintro (hcaptured | ⟨href, hown⟩)
    · exact .inl (.inl hcaptured)
    · by_cases houter : ∃ c ∈ around, c.kind.isContext = true ∧ p.table.BindsAt c.id name
      · exact .inl (.inr ⟨href, hown, houter⟩)
      · exact .inr ⟨href, fun _ => hown, fun c hc hk hb => houter ⟨c, hc, hk, hb⟩⟩

theorem accounts_finish (hfresh : n.kind.isContext = true → ¬ p.table.Outward n.id name)
    (ha : p.Accounts tracking e name) : (p.finish tracking n).Accounts tracking e name := by
  have howns : e.Owns tracking p.table name →
      e.Owns tracking (p.finish tracking n).table name := Or.imp_right h.bindsAt_finish
  by_cases hself : n.kind.isContext = true ∧ e.context.id = n.id
  · obtain ⟨hcontext, he⟩ := hself
    have houtward : (p.finish tracking n).table.Outward n.id name ↔ _ :=
      h.outward_finish ht hn hlt hcontext
    unfold Pass.Accounts ScopeTable.Accounts at ha ⊢
    rw [he] at ha ⊢
    rcases ha with ha | ha | ha | ha
    · by_cases hb : p.table.BindsAt n.id name
      · exact .inr (.inr (.inr (howns (.inr (he ▸ hb)))))
      · exact .inr (.inr (.inl (houtward.mpr (.inr ⟨ha, hb⟩))))
    · exact .inr (.inr (.inl (houtward.mpr (.inl ha))))
    · exact absurd ha (hfresh hcontext)
    · exact .inr (.inr (.inr (howns ha)))
  · have hne (hcontext : n.kind.isContext = true) : e.context.id ≠ n.id :=
      fun he => hself ⟨hcontext, he⟩
    rcases ha with ha | ha | ha | ha
    · refine .inl ?_
      cases hcontext : n.kind.isContext with
      | false => exact (holds_finish_inner hcontext fun _ _ => Iff.rfl).mpr ha
      | true => exact (h.refers_finish ht hn hcontext hlt).mpr (.inl ⟨hne hcontext, ha⟩)
    · refine .inr (.inl ?_)
      cases hcontext : n.kind.isContext with
      | false => exact (holds_finish_inner hcontext fun _ _ => Iff.rfl).mpr ha
      | true => exact (h.captures_finish ht hn hcontext).mpr ⟨hne hcontext, ha⟩
    · exact .inr (.inr (.inl ((h.has_finish_of_ne hne).mpr ha)))
    · exact .inr (.inr (.inr (howns ha)))

end Finish

end Walking

/-! ## Along a walk -/

/-- The nodes reached so far are accounted for: every reference by its nearest context, and all that
    leads outward from a context by the enclosing one. -/
structure Unbroken (t : Tree) (tracking : Bool) (k : Nat) (around : List Node) (p : Pass) :
    Prop where
  /-- Until a context is left, its scope lists no name as captured or free. -/
  fresh : ∀ c ∈ around, c.kind.isContext = true → ∀ name, ¬ p.table.Outward c.id name
  references : ∀ r path name, (r, path) ∈ t.sites → r.id < k → r.reference? = some name →
    ∀ e es, enclosures path = e :: es → p.Accounts tracking e name
  contexts : ∀ c above name, (c, above) ∈ t.sites → c.kind.isContext = true → c.id < k →
    p.Captures c.id name ∨ p.table.Outward c.id name →
      ∀ e es, enclosures above = e :: es → p.Accounts tracking e name

/-- The nearest context around a site has a lower number. -/
theorem context_id_lt (ht : Tree.ofDocument d = .ok t) (hn : (n, path) ∈ t.sites)
    {es : List Enclosure} (he : enclosures path = e :: es) : e.context.id < n.id :=
  Tree.id_lt_of_mem_around ht hn _
    (exists_enclosure_iff.mp ⟨e, he ▸ List.mem_cons_self, rfl⟩).1

namespace Unbroken

theorem «begin» (ht : Tree.ofDocument d = .ok t) (hn : (n, around) ∈ t.sites)
    (h : Walking t tracking n.id around p) (hu : Unbroken t tracking n.id around p)
    (parent : Option Node) :
    Unbroken t tracking (n.id + 1) (n :: around) (p.begin tracking parent n) := by
  have hkept {m : Node} {path : List Node} {e : Enclosure} {es : List Enclosure} {name : String}
      (hm : (m, path) ∈ t.sites) (hle : m.id ≤ n.id) (he : enclosures path = e :: es)
      (ha : p.Accounts tracking e name) :
      (p.begin tracking parent n).Accounts tracking e name := by
    have hlt := Nat.lt_of_lt_of_le (context_id_lt ht hm he) hle
    exact h.accounts_begin ht hn parent (Nat.ne_of_lt hlt) ha
  refine ⟨?fresh, ?references, ?contexts⟩
  case fresh =>
    intro c hc hk name
    rcases List.mem_cons.mp hc with rfl | hc
    · exact h.not_outward_begin ht hn parent hk
    · have hne := Nat.ne_of_lt (Tree.id_lt_of_mem_around ht hn c hc)
      rw [h.outward_begin ht hn parent hne]
      exact hu.fresh c hc hk name
  case references =>
    intro r path name hr hlt href e es he
    rcases Nat.lt_succ_iff_lt_or_eq.mp hlt with hlt | hid
    · exact hkept hr (Nat.le_of_lt hlt) he (hu.references r path name hr hlt href e es he)
    · cases Tree.site_unique ht hr hn hid
      exact h.accounts_reference ht hn parent href he
  case contexts =>
    intro c above name hc hk hlt hout e es he
    rw [h.captures_begin ht hn parent] at hout
    rcases Nat.lt_succ_iff_lt_or_eq.mp hlt with hlt | hid
    · rw [h.outward_begin ht hn parent (Nat.ne_of_lt hlt)] at hout
      rcases hout with (hold | ⟨href, beyond, hescapes, howned⟩) | hold
      · exact hkept hc (Nat.le_of_lt hlt) he
          (hu.contexts c above name hc hk hlt (.inl hold) e es he)
      · obtain ⟨between, c', above', rfl, hid, -, rfl⟩ := hescapes.site
        cases Tree.site_unique ht (Tree.mem_sites_of_append hn).1 hc hid
        exact h.accounts_captured ht hn parent href (he ▸ hescapes) (he ▸ howned)
      · exact hkept hc (Nat.le_of_lt hlt) he
          (hu.contexts c above name hc hk hlt (.inr hold) e es he)
    · cases Tree.site_unique ht hc hn hid
      rcases hout with (hold | ⟨href, -⟩) | hold
      · exact absurd (h.lt_of_holds hold) (Nat.lt_irrefl _)
      · simp [Pass.reference?_of_isContext hk] at href
      · exact absurd hold (h.not_outward_begin ht hn parent hk)

theorem finish (ht : Tree.ofDocument d = .ok t) (hn : (n, around) ∈ t.sites) (hlt : n.id < k)
    (h : Walking t tracking k (n :: around) p) (hu : Unbroken t tracking k (n :: around) p) :
    Unbroken t tracking k around (p.finish tracking n) := by
  have hkept {e : Enclosure} {name : String} :
      p.Accounts tracking e name → (p.finish tracking n).Accounts tracking e name :=
    h.accounts_finish ht hn hlt fun hk => hu.fresh n List.mem_cons_self hk name
  refine ⟨?fresh, ?references, ?contexts⟩
  case fresh =>
    intro c hc hk name
    have hne := Nat.ne_of_lt (Tree.id_lt_of_mem_around ht hn c hc)
    exact mt (h.has_finish_of_ne fun _ => hne).mp (hu.fresh c (List.mem_cons_of_mem _ hc) hk name)
  case references =>
    exact fun r path name hr hlt href e es he =>
      hkept (hu.references r path name hr hlt href e es he)
  case contexts =>
    intro c above name hc hk hlt' hout e es he
    by_cases hself : n.kind.isContext = true ∧ c.id = n.id
    · obtain ⟨hcontext, hid⟩ := hself
      cases Tree.site_unique ht hc hn hid
      rw [h.captures_finish ht hn hcontext, h.outward_finish ht hn hlt hcontext] at hout
      rcases hout with ⟨hne, -⟩ | hcaptured | ⟨href, hown⟩
      · exact absurd rfl hne
      · exact hkept (hu.contexts _ _ name hc hk hlt (.inl hcaptured) e es he)
      · refine .inl ((h.refers_finish ht hn hcontext hlt).mpr (.inr ⟨?_, href, hown⟩))
        rw [← head?_enclosures, he]
        rfl
    · have hne (hcontext : n.kind.isContext = true) : c.id ≠ n.id :=
        fun hid => hself ⟨hcontext, hid⟩
      rw [ScopeTable.Outward, h.has_finish_of_ne hne] at hout
      refine hkept (hu.contexts c above name hc hk hlt' (hout.imp_left fun hcaptured => ?_) e es he)
      cases hcontext : n.kind.isContext with
      | false => exact (Walking.holds_finish_inner hcontext fun _ _ => Iff.rfl).mp hcaptured
      | true => exact ((h.captures_finish ht hn hcontext).mp hcaptured).2

end Unbroken

/-- At the end of a walk all frames are closed, and the table accounts for every name. -/
theorem accounted_annotate (tracking : Bool) (ht : Tree.ofDocument d = .ok t) :
    ∃ p : Pass, annotate tracking t = p.table ∧ Walking t tracking t.size [] p ∧
      (∀ r path name, (r, path) ∈ t.sites → r.reference? = some name →
        ∀ e es, enclosures path = e :: es → p.table.Accounts tracking e name) ∧
      ∀ c above name, (c, above) ∈ t.sites → c.kind.isContext = true →
        p.table.Outward c.id name →
        ∀ e es, enclosures above = e :: es → p.table.Accounts tracking e name := by
  obtain ⟨p, hp, hframes, hw, hu⟩ := annotate_induct tracking (J := Unbroken t tracking) ht
    (fun hn hw hu => hu.begin ht hn hw _) (fun hn hlt hw hu => hu.finish ht hn hlt hw)
    ⟨nofun, fun _ _ _ _ hlt => absurd hlt (Nat.not_lt_zero _),
      fun _ _ _ _ _ hlt => absurd hlt (Nat.not_lt_zero _)⟩
  have closed {e : Enclosure} {name : String} (ha : p.Accounts tracking e name) :
      p.table.Accounts tracking e name := by
    rcases ha with ⟨f, hf, -⟩ | ⟨f, hf, -⟩ | ha
    · simp [hframes] at hf
    · simp [hframes] at hf
    · exact ha
  refine ⟨p, hp, hw, ?references, ?contexts⟩
  case references =>
    exact fun r path name hr href e es he =>
      closed (hu.references r path name hr (Tree.id_lt_size ht hr) href e es he)
  case contexts =>
    exact fun c above name hc hk hout e es he =>
      closed (hu.contexts c above name hc hk (Tree.id_lt_size ht hc) (.inr hout) e es he)

/-- The nearest context of every reference accounts for its name, and the context around a context
    accounts for every name that leads outward from it. -/
theorem references_accounted (ht : Tree.ofDocument d = .ok t) (tracking : Bool) :
    (∀ r path name, (r, path) ∈ t.sites → r.reference? = some name →
      ∀ e ∈ (enclosures path).head?, (annotate tracking t).Accounts tracking e name) ∧
    ∀ c above, (c, above) ∈ t.sites → c.kind.isContext = true →
      ∃ s, (annotate tracking t).functionScope? c.id = some s ∧
        ∀ name, name ∈ s.upvars ∨ name ∈ s.freevars →
          ∀ e ∈ (enclosures above).head?, (annotate tracking t).Accounts tracking e name := by
  obtain ⟨p, hp, hw, hrefs, hcontexts⟩ := accounted_annotate tracking ht
  rw [hp]
  refine ⟨fun r path name hr href e he => ?_, fun c above hc hk => ?_⟩
  · obtain ⟨es, he⟩ := List.head?_eq_some_iff.mp he
    exact hrefs r path name hr href e es he
  · obtain ⟨s, hs, -⟩ := hw.owned c above hc hk (Tree.id_lt_size ht hc)
    refine ⟨s, hs, fun name hname e he => ?_⟩
    obtain ⟨es, he⟩ := List.head?_eq_some_iff.mp he
    exact hcontexts c above name hc hk ⟨s, hs, hname⟩ e es he

/-- The reference to `kept` below two functions. -/
theorem references_accounted_closure :
    ∃ r path e, (r, path) ∈ closureTree.sites ∧ r.reference? = some "kept" ∧
      (enclosures path).head? = some e ∧
      (annotate true closureTree).Accounts true e "kept" := by
  have hr : closureTree.sites[13] ∈ closureTree.sites := List.getElem_mem (by decide)
  exact ⟨_, _, _, hr, rfl, rfl,
    (references_accounted ofDocument_closure true).1 _ _ _ hr rfl _ rfl⟩

end ScriptSandbox.Scope
