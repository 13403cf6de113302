import ScriptSandbox.Proofs.Scope.Classification

/-
  Captured and free names are disjoint.

  A context lists a name as captured because a block around it binds the name at a reference, or
  because a context around it binds the name throughout when it is left; it lists a name as free
  when nothing does. The first two are found at different times, so the argument is about what never
  changes: the blocks around a context bind the same names all along the walk, and no context loses
  a binding. Hence a name in the frame of an open context either has a binder among the contexts, or
  no block around the context binds it (`Apart`), and no scope lists a name twice
  (`upvars_freevars_disjoint`). Nothing is asked of the document.
-/

namespace ScriptSandbox.Scope

open Syntax

variable {d : Document} {t : Tree} {tracking : Bool} {k : Nat} {around above : List Node}
  {p : Pass} {n c : Node} {name : String} {table : ScopeTable} {es : List Enclosure}

/-- A block of a context around a site binds a name. -/
def BlockBound (tracking : Bool) (es : List Enclosure) (name : String) : Prop :=
  ∃ e ∈ es, e.BlockBinds tracking name

theorem BlockOwned.blockBound (h : BlockOwned tracking table name es) :
    BlockBound tracking es name := by
  induction es with
  | nil => exact h.elim
  | cons e es ih =>
    rcases h with h | ⟨-, h⟩
    · exact ⟨e, List.mem_cons_self, h⟩
    · obtain ⟨e', he, h⟩ := ih h
      exact ⟨e', List.mem_cons_of_mem _ he, h⟩

/-- A context around a site binds a name throughout. -/
def ScopeTable.BindsAmong (table : ScopeTable) (es : List Enclosure) (name : String) : Prop :=
  ∃ e ∈ es, table.BindsAt e.context.id name

theorem bindsAmong_cons_iff {e : Enclosure} : table.BindsAmong (e :: es) name ↔
    table.BindsAt e.context.id name ∨ table.BindsAmong es name := by
  simp [ScopeTable.BindsAmong]

theorem ScopeTable.BindsAmong.mono {table' : ScopeTable}
    (h : ∀ id, table.BindsAt id name → table'.BindsAt id name) (hb : table.BindsAmong es name) :
    table'.BindsAmong es name := by
  obtain ⟨e, he, hb⟩ := hb
  exact ⟨e, he, h _ hb⟩

theorem bindsAmong_enclosures_iff : table.BindsAmong (enclosures around) name ↔
    ∃ c ∈ around, c.kind.isContext = true ∧ table.BindsAt c.id name := by
  constructor
  · rintro ⟨e, he, hb⟩
    obtain ⟨hmem, hk⟩ := exists_enclosure_iff.mp ⟨e, he, rfl⟩
    exact ⟨e.context, hmem, hk, hb⟩
  · rintro ⟨c, hc, hk, hb⟩
    obtain ⟨e, he, rfl⟩ := exists_enclosure_iff.mpr ⟨hc, hk⟩
    exact ⟨e, he, hb⟩

/-- A name that a block binds but no block owns is bound throughout a context on the way. -/
theorem bindsAmong_of_not_blockOwned (hnot : ¬ BlockOwned tracking table name es)
    (hblock : BlockBound tracking es name) : table.BindsAmong es name := by
  by_contra hnone
  obtain ⟨e, he, hb⟩ := hblock
  exact not_owns_of_not_blockOwned hnot (fun e he hb => hnone ⟨e, he, hb⟩) e he (.inl hb)

/-- Why the names of open contexts and of scopes are where they are, in terms that no later step of
    the walk undoes. -/
structure Apart (t : Tree) (tracking : Bool) (p : Pass) : Prop where
  captured : ∀ c above name, (c, above) ∈ t.sites → c.kind.isContext = true →
    p.Captures c.id name → BlockBound tracking (enclosures above) name
  referred : ∀ c above name, (c, above) ∈ t.sites → c.kind.isContext = true →
    p.Refers c.id name → BlockBound tracking (enclosures above) name →
      p.table.BindsAt c.id name ∨ p.table.BindsAmong (enclosures above) name
  disjoint : ∀ c above name, (c, above) ∈ t.sites → c.kind.isContext = true →
    ¬ p.table.Has c.id fun s => name ∈ s.upvars ∧ name ∈ s.freevars

namespace Apart

theorem start (t : Tree) (tracking : Bool) : Apart t tracking ⟨[], .blank t.size⟩ := by
  refine ⟨?captured, ?referred, ?disjoint⟩
  case captured =>
    rintro c above name - - ⟨f, hf, -⟩
    cases hf
  case referred =>
    rintro c above name - - ⟨f, hf, -⟩
    cases hf
  case disjoint =>
    rintro c above name - - ⟨s, hs, -⟩
    obtain ⟨i, hi, -⟩ := ScopeTable.functionScope?_eq_some.mp hs
    exact Nat.not_lt_zero _ ((Walking.start t tracking).linked c.id i hi).1

theorem «begin» (ht : Tree.ofDocument d = .ok t) (hn : (n, around) ∈ t.sites)
    (h : Walking t tracking n.id around p) (ha : Apart t tracking p) (parent : Option Node) :
    Apart t tracking (p.begin tracking parent n) := by
  -- a context that binds anything has been reached, so it is not the node itself
  have hkept {name : String} (id : NodeId) (hb : p.table.BindsAt id name) :
      (p.begin tracking parent n).table.BindsAt id name := by
    have ⟨s, hs, _⟩ := hb
    obtain ⟨i, hi, -⟩ := ScopeTable.functionScope?_eq_some.mp hs
    exact h.bindsAt_begin ht hn parent (Nat.ne_of_lt (h.linked _ i hi).1) hb
  refine ⟨?captured, ?referred, ?disjoint⟩
  case captured =>
    intro c above name hc hk hcaptured
    rcases (h.captures_begin ht hn parent).mp hcaptured with hold | ⟨-, beyond, hescapes, howned⟩
    · exact ha.captured c above name hc hk hold
    · obtain ⟨between, c', above', rfl, hid, -, rfl⟩ := hescapes.site
      cases Tree.site_unique ht (Tree.mem_sites_of_append hn).1 hc hid
      exact howned.blockBound
  case referred =>
    intro c above name hc hk hreferred hblock
    refine Or.imp (hkept c.id) (.mono hkept) ?_
    rcases (h.refers_begin ht hn parent).mp hreferred with hold | ⟨-, hnear, hnot⟩
    · exact ha.referred c above name hc hk hold hblock
    · obtain ⟨e, he, rfl, -⟩ := enclosing_site ht hn hc hnear
      obtain ⟨e', he', hb⟩ := hblock
      rw [he] at hnot
      exact bindsAmong_cons_iff.mp
        (bindsAmong_of_not_blockOwned hnot ⟨e', List.mem_cons_of_mem _ he', hb⟩)
  case disjoint =>
    intro c above name hc hk hboth
    refine ha.disjoint c above name hc hk (h.has_of_begin ht hn parent ?_ ?_ hc hk hboth)
    · exact fun s s' hs => by rw [hs.upvars, hs.freevars]
    · exact fun _ hboth => List.not_mem_nil hboth.1

/-- The names of a context that is left. -/
theorem disjoint_finish (ht : Tree.ofDocument d = .ok t) (hn : (n, around) ∈ t.sites)
    (hlt : n.id < k) (h : Walking t tracking k (n :: around) p) (ha : Apart t tracking p)
    (hcontext : n.kind.isContext = true) (name : String) :
    ¬ (p.finish tracking n).table.Has n.id fun s => name ∈ s.upvars ∧ name ∈ s.freevars := by
  rintro ⟨s, hs, hup, hfree⟩
  obtain ⟨href, hnone⟩ := (h.has_freevars_finish ht hn hcontext hlt).mp ⟨s, hs, hfree⟩
  obtain ⟨hself, hnone⟩ := List.forall_mem_cons.mp hnone
  have hnone : ¬ p.table.BindsAmong (enclosures around) name := by
    rw [bindsAmong_enclosures_iff]
    exact fun ⟨c, hc, hk, hb⟩ => hnone c hc hk hb
  rcases (h.has_upvars_finish ht hn hcontext hlt).mp ⟨s, hs, hup⟩ with hcaptured | ⟨-, -, houter⟩
  · have hblock := ha.captured n around name hn hcontext hcaptured
    exact (ha.referred n around name hn hcontext href hblock).elim (hself hcontext) hnone
  · exact hnone (bindsAmong_enclosures_iff.mpr houter)

theorem finish (ht : Tree.ofDocument d = .ok t) (hn : (n, around) ∈ t.sites) (hlt : n.id < k)
    (h : Walking t tracking k (n :: around) p) (ha : Apart t tracking p) :
    Apart t tracking (p.finish tracking n) := by
  refine ⟨?captured, ?referred, ?disjoint⟩
  case captured =>
    intro c above name hc hk hcaptured
    refine ha.captured c above name hc hk ?_
    cases hcontext : n.kind.isContext with
    | false => exact (Walking.holds_finish_inner hcontext fun _ _ => Iff.rfl).mp hcaptured
    | true => exact ((h.captures_finish ht hn hcontext).mp hcaptured).2
  case referred =>
    intro c above name hc hk hreferred hblock
    refine Or.imp h.bindsAt_finish (.mono fun _ => h.bindsAt_finish) ?_
    cases hcontext : n.kind.isContext with
    | false =>
      exact ha.referred c above name hc hk
        ((Walking.holds_finish_inner hcontext fun _ _ => Iff.rfl).mp hreferred) hblock
    | true =>
      rcases (h.refers_finish ht hn hcontext hlt).mp hreferred with ⟨-, hold⟩ | ⟨hnear, href, hown⟩
      · exact ha.referred c above name hc hk hold hblock
      · obtain ⟨e, he, rfl, -⟩ := enclosing_site ht hn hc hnear
        obtain ⟨e', he', hb⟩ := hblock
        have hbound := ha.referred n around name hn hcontext href
          ⟨e', he ▸ List.mem_cons_of_mem _ he', hb⟩
        rw [he] at hbound
        exact bindsAmong_cons_iff.mp (hbound.resolve_left hown)
  case disjoint =>
    intro c above name hc hk
    by_cases hself : n.kind.isContext = true ∧ c.id = n.id
    · cases Tree.site_unique ht hc hn hself.2
      exact ha.disjoint_finish ht hn hlt h hself.1 name
    · rw [h.has_finish_of_ne fun hcontext hid => hself ⟨hcontext, hid⟩]
      exact ha.disjoint c above name hc hk

end Apart

/-- No scope lists a name both as captured and as free. -/
theorem upvars_freevars_disjoint (ht : Tree.ofDocument d = .ok t) (tracking : Bool) :
    ∀ s ∈ (annotate tracking t).scopes, ∀ name, ¬ (name ∈ s.upvars ∧ name ∈ s.freevars) := by
  intro s hs name hboth
  obtain ⟨c, above, hc, hk, hscope⟩ := exists_context_of_scope tracking ht hs
  obtain ⟨p, hp, -, -, ha⟩ := annotate_induct tracking (J := fun _ _ p => Apart t tracking p) ht
    (fun hn hw ha => ha.begin ht hn hw _) (fun hn hlt hw ha => ha.finish ht hn hlt hw)
    (.start t tracking)
  exact ha.disjoint c above name hc hk ⟨s, hp ▸ hscope, hboth⟩

/-- `{ let x; (function () { x; { function x() {} } x; (function () { x; free; }); }); }` -/
def revisitDocument : Document :=
  syntaxDocument "Program" [("body", .array [
    blockDocument [
      declarationDocument "let" "x",
      statementDocument (functionDocument none [] [
        statementDocument (identifierDocument "x"),
        blockDocument [functionDocument (some "x") [] []],
        statementDocument (identifierDocument "x"),
        statementDocument (functionDocument none [] [
          statementDocument (identifierDocument "x"),
          statementDocument (identifierDocument "free")])])]])]

theorem ofDocument_revisit :
    Tree.ofDocument revisitDocument = .ok (treeOf revisitDocument) := rfl

/-- A name that is first captured from a block and later referred to as a binding of the context
    itself, next to a name that nothing binds. -/
theorem upvars_freevars_disjoint_revisit :
    Tree.ofDocument revisitDocument = .ok (treeOf revisitDocument) ∧
      (annotate true (treeOf revisitDocument)).scopes.map
          (fun s => (s.upvars.names, s.freevars.names)) =
        #[([], ["free"]), (["x"], ["free"]), ([], []), (["x"], ["free"])] ∧
      ∀ s ∈ (annotate true (treeOf revisitDocument)).scopes, ∀ name,
        ¬ (name ∈ s.upvars ∧ name ∈ s.freevars) :=
  ⟨ofDocument_revisit, by decide +kernel, upvars_freevars_disjoint ofDocument_revisit true⟩

end ScriptSandbox.Scope
