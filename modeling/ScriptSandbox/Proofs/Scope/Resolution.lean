import ScriptSandbox.Proofs.Scope.Handover

/-
  Scopes and the search outward.

  The walk pushes scopes as it meets contexts and takes their parents from the frames that are open.
  In the finished table none of that shows: the scopes are the contexts in the order of their
  numbers (`Listed`), each linked with its node and with the nearest context around it. So a parent
  comes before its children, the search along the parents ends however far it may go
  (`ScopeTable.Finds`), and what it finds is read off the contexts around a node.
-/

namespace ScriptSandbox.Scope

open Syntax

variable {d : Document} {t : Tree} {tracking : Bool} {k : Nat} {around above : List Node}
  {p : Pass} {n c : Node} {name : String}

/-! ## Scopes in the order of their nodes -/

namespace ScopeTable

variable {table : ScopeTable}

/-- The nodes of the scopes. -/
def nodes (table : ScopeTable) : List NodeId := table.scopes.toList.map (·.node)

theorem nodes_modifyScope {f : FunctionScope → FunctionScope} (hf : ∀ s, (f s).node = s.node)
    (i : ScopeId) : (table.modifyScope i f).nodes = table.nodes := by
  have h : (table.modifyScope i f).scopes.map (·.node) = table.scopes.map (·.node) := by
    apply Array.ext_getElem?
    intro j
    rw [Array.getElem?_map, Array.getElem?_map, scopes_modifyScope]
    split
    · rw [Option.map_map]
      exact congrArg (Option.map · _) (funext hf)
    · rfl
  simpa [nodes] using congrArg Array.toList h

theorem nodes_pushScope (s : FunctionScope) :
    (table.pushScope s).nodes = table.nodes ++ [s.node] := by
  simp [nodes]

end ScopeTable

theorem nodes_noted (p : Pass) (tracking : Bool) (parent : Option Node) (n : Node) :
    (p.modifyInnermost (FunctionScope.note tracking parent n)).nodes = p.table.nodes := by
  unfold Pass.modifyInnermost
  split
  · rfl
  · exact ScopeTable.nodes_modifyScope
      (fun s => (FunctionScope.sameContext_note tracking parent n s).node) _

/-- Whether a number is that of a context. -/
def hasContext (t : Tree) (id : NodeId) : Bool :=
  t.sites.any fun s => s.1.id == id && s.1.kind.isContext

theorem hasContext_iff (ht : Tree.ofDocument d = .ok t) (hn : (n, around) ∈ t.sites) :
    hasContext t n.id = n.kind.isContext := by
  rw [Bool.eq_iff_iff, hasContext, List.any_eq_true]
  constructor
  · rintro ⟨s, hs, h⟩
    obtain ⟨hid, hk⟩ := Bool.and_eq_true_iff.mp h
    cases Tree.site_unique ht hs hn (beq_iff_eq.mp hid)
    exact hk
  · exact fun hk => ⟨_, hn, by simp [hk]⟩

/-- The scopes are those of the contexts numbered below `k`, in order. -/
def Listed (t : Tree) (k : Nat) (p : Pass) : Prop :=
  p.table.nodes = (List.range k).filter (hasContext t)

namespace Listed

theorem «begin» (ht : Tree.ofDocument d = .ok t) (hn : (n, around) ∈ t.sites)
    (h : Listed t n.id p) (parent : Option Node) :
    Listed t (n.id + 1) (p.begin tracking parent n) := by
  unfold Listed at h ⊢
  rw [List.range_succ, List.filter_append, ← h]
  cases hcontext : n.kind.isContext with
  | false =>
    rw [List.filter_cons_of_neg (by simp [hasContext_iff ht hn, hcontext]), List.filter_nil,
      List.append_nil]
    cases href : n.reference? with
    | some name => rw [Pass.begin_reference href, Pass.table_reference]
    | none =>
      obtain ⟨-, htable⟩ := Pass.begin_inner p tracking parent href hcontext
      rw [ScopeTable.nodes, htable.scopes]
      exact nodes_noted p tracking parent n
  | true =>
    rw [List.filter_cons_of_pos (by simp [hasContext_iff ht hn, hcontext]), List.filter_nil]
    obtain ⟨-, htable⟩ := Pass.begin_context p tracking parent hcontext
    rw [ScopeTable.nodes, htable.scopes]
    refine (ScopeTable.nodes_pushScope _).trans ?_
    rw [nodes_noted, (Pass.sameContext_entered tracking _ n).node]
    rfl

theorem finish (hw : Walking t tracking k (n :: around) p) (h : Listed t k p) :
    Listed t k (p.finish tracking n) := by
  refine Eq.trans ?_ h
  cases hcontext : n.kind.isContext with
  | false =>
    obtain ⟨-, htable⟩ := Pass.finish_inner p tracking hcontext
    rw [ScopeTable.nodes, htable.scopes, ScopeTable.nodes]
  | true =>
    have hframes := hw.frames
    rw [enclosures_of_context hcontext] at hframes
    obtain ⟨f, rest, -, -, hfs⟩ := List.forall₂_cons_right_iff.mp hframes
    obtain ⟨-, htable⟩ := Pass.finish_context tracking hcontext hfs
    rw [ScopeTable.nodes, htable.scopes]
    exact ScopeTable.nodes_modifyScope (by exact fun _ => rfl) f.scope

end Listed

theorem filter_hasContext (ht : Tree.ofDocument d = .ok t) :
    (List.range t.size).filter (hasContext t) =
      (t.sites.filter fun s => s.1.kind.isContext).map (·.1.id) := by
  rw [← Tree.map_id_sites ht, List.filter_map]
  exact congrArg _ (List.filter_congr fun s hs => hasContext_iff ht hs)

/-! ## The search outward -/

/-- What the search for a scope that binds a name finds, however many steps it takes. -/
inductive ScopeTable.Finds (table : ScopeTable) (name : String) :
    Option ScopeId → Option (ScopeId × NodeId) → Prop
  | nothing : Finds table name none none
  | here {i : ScopeId} {s : FunctionScope} {node : NodeId} (hs : table.scopes[i]? = some s)
    (h : s.declaration? name = some node) : Finds table name (some i) (some (i, node))
  | outward {i : ScopeId} {s : FunctionScope} {found : Option (ScopeId × NodeId)}
    (hs : table.scopes[i]? = some s) (h : s.declaration? name = none)
    (h' : Finds table name s.parent found) : Finds table name (some i) found

theorem ScopeTable.Finds.unique {table : ScopeTable} {from? : Option ScopeId}
    {found found' : Option (ScopeId × NodeId)} (h : table.Finds name from? found)
    (h' : table.Finds name from? found') : found = found' := by
  induction h with
  | nothing =>
    cases h'
    rfl
  | here hs h =>
    cases h' with
    | here hs' h₁ =>
      cases hs.symm.trans hs'
      cases h.symm.trans h₁
      rfl
    | outward hs' h₁ _ =>
      cases hs.symm.trans hs'
      cases h.symm.trans h₁
  | outward hs h _ ih =>
    cases h' with
    | here hs' h₁ =>
      cases hs.symm.trans hs'
      cases h.symm.trans h₁
    | outward hs' _ h₁ =>
      cases hs.symm.trans hs'
      exact ih h₁

/-- Where parents come before their children, a bounded search finds what there is to find. -/
theorem ScopeTable.finds_binderWithin {table : ScopeTable} (name : String)
    (hparent : ∀ {i : ScopeId} {s : FunctionScope}, table.scopes[i]? = some s →
      ∀ j, s.parent = some j → j < i) (steps : Nat) {from? : Option ScopeId}
    (hsteps : ∀ i, from? = some i → i < steps ∧ i < table.scopes.size) :
    table.Finds name from? (table.binderWithin name steps from?) := by
  induction steps generalizing from? with
  | zero =>
    cases from? with
    | none => exact .nothing
    | some i => exact absurd (hsteps i rfl).1 (Nat.not_lt_zero i)
  | succ steps ih =>
    cases from? with
    | none => exact .nothing
    | some i =>
      obtain ⟨hlt, hsize⟩ := hsteps i rfl
      have hs : table.scopes[i]? = some table.scopes[i] := Array.getElem?_eq_getElem hsize
      simp only [binderWithin, hs]
      cases hdecl : table.scopes[i].declaration? name with
      | some node => exact .here hs hdecl
      | none =>
        refine .outward hs hdecl (ih fun j hj => ?_)
        have hji : j < i := hparent hs j hj
        exact ⟨Nat.lt_of_lt_of_le hji (Nat.le_of_lt_succ hlt), Nat.lt_trans hji hsize⟩

/-! ## What the search finds -/

/-- The declaration that a name has throughout a context: that of a variable, or the function itself
    for the arguments of a function that is no arrow function. -/
def ScopeTable.declarationIn? (table : ScopeTable) (name : String) (c : Node) : Option NodeId :=
  (table.functionScope? c.id).bind fun s =>
    (s.vars.find? name).or <|
      if (c.kind = .functionDeclaration ∨ c.kind = .functionExpression) ∧ name = "arguments" then
        some c.id
      else none

/-- The first context on a path that has a name throughout, and the declaration it has. -/
def ScopeTable.binderOn? (table : ScopeTable) (name : String) (path : List Node) :
    Option (Node × NodeId) :=
  (contextsOf path).findSome? fun c => (table.declarationIn? name c).map (c, ·)

theorem declaration?_eq {s : FunctionScope} (hnode : s.node = c.id)
    (harguments : s.bindsArguments =
      (c.kind = .functionDeclaration || c.kind = .functionExpression)) :
    s.declaration? name = (s.vars.find? name).or
      (if (c.kind = .functionDeclaration ∨ c.kind = .functionExpression) ∧ name = "arguments" then
        some c.id
      else none) := by
  unfold FunctionScope.declaration?
  cases s.vars.find? name with
  | some node => rfl
  | none => simp [hnode, harguments]

section Finished

variable (ht : Tree.ofDocument d = .ok t) (hw : Walking t tracking t.size around p)

section Context

variable (hc : (c, above) ∈ t.sites) (hk : c.kind.isContext = true) {i : ScopeId}
  (hi : p.table.scopeId? c.id = some i)

include ht hw hc hk

theorem exists_scopeId? : ∃ j, p.table.scopeId? c.id = some j := by
  obtain ⟨s, hs, -⟩ := hw.owned c above hc hk (Tree.id_lt_size ht hc)
  obtain ⟨j, hj, -⟩ := ScopeTable.functionScope?_eq_some.mp hs
  exact ⟨j, hj⟩

include hi

/-- The parent of a scope is that of the nearest context around its node. -/
theorem parent_of_nearest {s : FunctionScope} (hs : p.table.scopes[i]? = some s) :
    match nearestContext? above with
    | some c' => ∃ j, p.table.scopeId? c'.id = some j ∧ s.parent = some j ∧ j < i
    | none => s.parent = none := by
  obtain ⟨-, s', hs', -, hlow⟩ := hw.linked _ _ hi
  cases hs.symm.trans hs'
  obtain ⟨s', hs', howned⟩ := hw.owned c above hc hk (Tree.id_lt_size ht hc)
  obtain ⟨i', hi', hscope⟩ := ScopeTable.functionScope?_eq_some.mp hs'
  cases hi.symm.trans hi'
  cases hs.symm.trans hscope
  cases hnear : nearestContext? above with
  | none => rw [howned, hnear, Option.bind_none]
  | some c' =>
    obtain ⟨hk', between, above', rfl, -⟩ := exists_contextsOf_eq_cons hnear
    obtain ⟨j, hj⟩ := exists_scopeId? ht hw (Tree.mem_sites_of_append hc).1 hk'
    rw [hnear, Option.bind_some, hj] at howned
    exact ⟨j, hj, howned, hlow j howned⟩

variable (hall : AllTabled t tracking t.size p)

include hall

theorem binderAt?_eq_declarationIn? :
    p.table.binderAt? name c = (p.table.declarationIn? name c).map (i, ·) := by
  obtain ⟨s, hs, htab⟩ := hall c above hc hk (Tree.id_lt_size ht hc)
  obtain ⟨i', hi', hscope⟩ := ScopeTable.functionScope?_eq_some.mp hs
  cases hi.symm.trans hi'
  obtain ⟨-, s', hs', hnode, -⟩ := hw.linked _ _ hi
  cases hscope.symm.trans hs'
  rw [binderAt?_eq hi hscope, ScopeTable.declarationIn?, hs, Option.bind_some,
    ← declaration?_eq hnode htab.bindsArguments]

end Context

variable (hall : AllTabled t tracking t.size p)

include ht hw hall

/-- The scope of the first context that has a name is the one that the search finds. -/
theorem findSome?_binderAt? (name : String) (above : List Node)
    (hsites : ∀ c ∈ above, ∃ above', (c, above') ∈ t.sites) :
    match p.table.binderOn? name above with
    | some (c, node) => ∃ j, p.table.scopeId? c.id = some j ∧
        (contextsOf above).findSome? (p.table.binderAt? name) = some (j, node)
    | none => (contextsOf above).findSome? (p.table.binderAt? name) = none := by
  have hbinder : ∀ c ∈ contextsOf above, ∃ j, p.table.scopeId? c.id = some j ∧
      p.table.binderAt? name c = (p.table.declarationIn? name c).map (j, ·) := by
    intro c hc
    obtain ⟨hmem, hk⟩ := List.mem_filter.mp hc
    obtain ⟨above', hc⟩ := hsites c hmem
    obtain ⟨j, hj⟩ := exists_scopeId? ht hw hc hk
    exact ⟨j, hj, binderAt?_eq_declarationIn? ht hw hc hk hj hall⟩
  cases hfind : p.table.binderOn? name above with
  | none =>
    refine List.findSome?_eq_none_iff.mpr fun c hc => ?_
    obtain ⟨j, -, hb⟩ := hbinder c hc
    rw [hb, Option.map_eq_none_iff]
    exact Option.map_eq_none_iff.mp (List.findSome?_eq_none_iff.mp hfind c hc)
  | some found =>
    obtain ⟨before, c, after, hsplit, hfound, hbefore⟩ := List.findSome?_eq_some_iff.mp hfind
    obtain ⟨node, hnode, rfl⟩ := Option.map_eq_some_iff.mp hfound
    have hmem : ∀ x ∈ before ++ [c], x ∈ contextsOf above := fun x hx => by
      rw [hsplit]
      simp only [List.mem_append, List.mem_cons, List.not_mem_nil, or_false] at hx ⊢
      exact hx.imp_right .inl
    obtain ⟨j, hj, hb⟩ := hbinder c (hmem c (by simp))
    refine ⟨j, hj, List.findSome?_eq_some_iff.mpr ⟨before, c, after, hsplit, ?_, fun x hx => ?_⟩⟩
    · rw [hb, hnode]
      rfl
    · obtain ⟨j', -, hb'⟩ := hbinder x (hmem x (List.mem_append_left _ hx))
      rw [hb', Option.map_eq_none_iff]
      exact Option.map_eq_none_iff.mp (hbefore x hx)

/-- A name leads to the first context outward that has it throughout. -/
theorem resolve_first (hc : (c, above) ∈ t.sites) (hk : c.kind.isContext = true) {i : ScopeId}
    (hi : p.table.scopeId? c.id = some i) (name : String) :
    match p.table.declarationIn? name c, p.table.binderOn? name above with
    | some node, _ => p.table.resolve i name = .own node
    | none, some (c', node) =>
      ∃ j, p.table.scopeId? c'.id = some j ∧ p.table.resolve i name = .outer j node
    | none, none => p.table.resolve i name = .free := by
  rw [hw.resolve_outward ht hc hk (Tree.id_lt_size ht hc) hi,
    binderAt?_eq_declarationIn? ht hw hc hk hi hall]
  have houter := findSome?_binderAt? ht hw hall name above fun c' hc' => by
    obtain ⟨between, above', rfl, hsite⟩ := Tree.exists_site_of_mem hc hc'
    exact ⟨above', hsite⟩
  cases p.table.declarationIn? name c with
  | some node => rfl
  | none =>
    cases hon : p.table.binderOn? name above with
    | none =>
      simp only [hon] at houter
      simp only [houter, Option.map_none]
    | some found =>
      simp only [hon] at houter
      obtain ⟨j, hj, houter⟩ := houter
      exact ⟨j, hj, by simp only [houter, Option.map_none]⟩

end Finished

/-- The scopes of a document are its contexts in the order of their numbers, each linked both ways
    with its node. The parent of a scope is that of the nearest context around its node, and comes
    before it. So the search for the first scope that binds a name ends, with what the bounded
    search finds, and a name leads to the first context outward that has it throughout. -/
theorem scopes_mirror_contexts (tracking : Bool) (ht : Tree.ofDocument d = .ok t) :
    let table := annotate tracking t
    (table.nodes = (t.sites.filter fun s => s.1.kind.isContext).map (·.1.id) ∧
      table.nodes.Pairwise (· < ·)) ∧
    (∀ id i, table.scopeId? id = some i ↔ ∃ s, table.scopes[i]? = some s ∧ s.node = id) ∧
    ∀ i s, table.scopes[i]? = some s →
      ∃ c above, (c, above) ∈ t.sites ∧ c.kind.isContext = true ∧ s.node = c.id ∧
        (match nearestContext? above with
          | some c' => ∃ j, table.scopeId? c'.id = some j ∧ s.parent = some j ∧ j < i
          | none => s.parent = none) ∧
        ∀ name,
          (∀ found, table.Finds name (some i) found ↔
            table.binderWithin name table.scopes.size (some i) = found) ∧
          match table.declarationIn? name c, table.binderOn? name above with
          | some node, _ => table.resolve i name = .own node
          | none, some (c', node) =>
            ∃ j, table.scopeId? c'.id = some j ∧ table.resolve i name = .outer j node
          | none, none => table.resolve i name = .free := by
  obtain ⟨p, hp, -, hw, hscope, hall, hlisted⟩ := annotate_induct tracking
    (J := fun k _ p => Attributed t k p ∧ AllTabled t tracking k p ∧ Listed t k p) ht
    (fun hn hw ⟨hs, ha, hl⟩ => ⟨hs.begin ht hn hw _, ha.begin ht hn hw, hl.begin ht hn _⟩)
    (fun _ _ hw ⟨hs, ha, hl⟩ => ⟨hs.finish hw, ha.finish hw, hl.finish hw⟩)
    ⟨fun i hi => absurd hi (Nat.not_lt_zero i), AllTabled.start t tracking _, rfl⟩
  intro table
  rw [show table = p.table from hp]
  have hcontext : ∀ {i : ScopeId} {s : FunctionScope}, p.table.scopes[i]? = some s →
      ∃ c above, (c, above) ∈ t.sites ∧ c.kind.isContext = true ∧ p.table.scopeId? c.id = some i ∧
        s.node = c.id ∧ ∀ j, s.parent = some j → j < i := fun {i s} hs => by
    obtain ⟨c, above, hc, hk, -, hi⟩ := hscope i (Array.getElem?_eq_some_iff.mp hs).1
    obtain ⟨-, s', hs', hnode, hlow⟩ := hw.linked _ _ hi
    cases hs.symm.trans hs'
    exact ⟨c, above, hc, hk, hi, hnode, hlow⟩
  refine ⟨⟨hlisted.trans (filter_hasContext ht), ?_⟩, fun id i => ⟨fun hi => ?_, ?_⟩,
    fun i s hs => ?_⟩
  · rw [show p.table.nodes = _ from hlisted]
    exact List.pairwise_lt_range.filter _
  · obtain ⟨-, s, hs, hnode, -⟩ := hw.linked id i hi
    exact ⟨s, hs, hnode⟩
  · rintro ⟨s, hs, rfl⟩
    obtain ⟨c, -, -, -, hi, hnode, -⟩ := hcontext hs
    rw [hnode, hi]
  · obtain ⟨c, above, hc, hk, hi, hnode, -⟩ := hcontext hs
    refine ⟨c, above, hc, hk, hnode, parent_of_nearest ht hw hc hk hi hs, fun name =>
      ⟨fun found => ?_, resolve_first ht hw hall hc hk hi name⟩⟩
    have hfinds : p.table.Finds name (some i)
        (p.table.binderWithin name p.table.scopes.size (some i)) := by
      refine ScopeTable.finds_binderWithin name (fun hs => ?_) _ fun j hj => ?_
      · obtain ⟨-, -, -, -, -, -, hlow⟩ := hcontext hs
        exact hlow
      · cases hj
        have hsize := (Array.getElem?_eq_some_iff.mp hs).1
        exact ⟨hsize, hsize⟩
    exact ⟨fun h => hfinds.unique h, fun h => h ▸ hfinds⟩

/-- Of the three scopes the innermost is that of the function without a name. -/
theorem scopes_mirror_contexts_closure :
    Tree.ofDocument closureDocument = .ok closureTree ∧
      (annotate true closureTree).nodes = [0, 1, 8] ∧
      (annotate true closureTree).scopeId? 8 = some 2 := by
  obtain ⟨⟨hnodes, -⟩, hlinked, -⟩ := scopes_mirror_contexts true ofDocument_closure
  have hlast : ((annotate true closureTree).scopes[2]?).map (·.node) = some 8 := by
    decide +kernel
  exact ⟨ofDocument_closure, hnodes.trans (by decide),
    (hlinked 8 2).mpr (Option.map_eq_some_iff.mp hlast)⟩

example : (annotate true closureTree).resolve 2 "seen" = .outer 1 4 := by decide +kernel

end ScriptSandbox.Scope
