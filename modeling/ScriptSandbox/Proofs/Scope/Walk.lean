import Mathlib.Data.List.Forall2
import ScriptSandbox.Proofs.Scope.Enclosure
import ScriptSandbox.Proofs.Scope.Update
import ScriptSandbox.Proofs.Syntax.Numbering

/-
  A walk and where it stands.

  `Walking t tracking k around p` says that the walk of the tree stands below the nodes `around`,
  with the nodes numbered below `k` behind it or around it: the frames of the pass are the contexts
  around, each with its open blocks, and every context reached so far has a scope, linked to that of
  the nearest context around it. The way into a node and the way out of it keep this
  (`Walking.begin`, `Walking.finish`), and `annotate_induct` carries over whole walks whatever both
  keep. Every scope of the finished table belongs to a context (`exists_context_of_scope`).
-/

namespace ScriptSandbox.Scope

open Syntax

/-- A frame stands for a context around a site. -/
structure Mirrors (table : ScopeTable) (tracking : Bool) (f : Frame) (e : Enclosure) : Prop where
  scope : table.scopeId? e.context.id = some f.scope
  blocks : f.blocks = if tracking then e.blocks.map fun b => NameSet.ofList (blockNames b) else []

/-- The walk of a tree stands below `around`, with the numbers below `k` given out. -/
structure Walking (t : Tree) (tracking : Bool) (k : Nat) (around : List Node) (p : Pass) :
    Prop where
  size : p.table.info.size = t.size
  frames : List.Forall₂ (Mirrors p.table tracking) p.frames (enclosures around)
  /-- A scope belongs to one node, and the scope around it came before it. -/
  linked : ∀ id i, p.table.scopeId? id = some i →
    id < k ∧ ∃ s, p.table.scopes[i]? = some s ∧ s.node = id ∧ ∀ j, s.parent = some j → j < i
  owned : ∀ c above, (c, above) ∈ t.sites → c.kind.isContext = true → c.id < k →
    ∃ s, p.table.functionScope? c.id = some s ∧
      s.parent = (nearestContext? above).bind fun c' => p.table.scopeId? c'.id

theorem forall₂_mirrors {table table' : ScopeTable} {tracking : Bool} {fs fs' : List Frame}
    {es : List Enclosure} (h : List.Forall₂ (Mirrors table tracking) fs es)
    (hid : ∀ id, table'.scopeId? id = table.scopeId? id)
    (hplace : fs'.map Frame.place = fs.map Frame.place) :
    List.Forall₂ (Mirrors table' tracking) fs' es := by
  induction h generalizing fs' with
  | nil =>
    rw [List.map_nil, List.map_eq_nil_iff] at hplace
    exact hplace ▸ .nil
  | cons hf _ ih =>
    obtain ⟨f', rest', rfl, hf', hrest⟩ := List.map_eq_cons_iff.mp hplace
    obtain ⟨hscope, hblocks⟩ := Prod.mk.inj hf'
    exact .cons ⟨by rw [hid, hscope, hf.scope], hblocks.trans hf.blocks⟩ (ih hrest)

theorem ownBlocks_eq (tracking : Bool) (n : Node) :
    Pass.ownBlocks tracking n =
      if tracking then (blockOf n).map fun b => NameSet.ofList (blockNames b) else [] := by
  cases tracking with
  | false => rfl
  | true => cases hb : n.kind.opensBlock <;> simp [Pass.ownBlocks, blockOf, hb]

/-- A block that is opened around a site is opened in the innermost frame. -/
theorem forall₂_openBlock {table : ScopeTable} {tracking : Bool} {fs : List Frame} {n : Node}
    {around : List Node} (hn : n.kind.isContext = false)
    (h : List.Forall₂ (Mirrors table tracking) fs (enclosures around)) :
    List.Forall₂ (Mirrors table tracking)
      (onInnermost (fun f => { f with blocks := Pass.ownBlocks tracking n ++ f.blocks }) fs)
      (enclosures (n :: around)) := by
  cases he : enclosures around with
  | nil =>
    rw [he, List.forall₂_nil_right_iff] at h
    rw [h, enclosures_of_outside hn he]
    exact .nil
  | cons e es =>
    rw [he] at h
    obtain ⟨f, rest, hf, hrest, rfl⟩ := List.forall₂_cons_right_iff.mp h
    rw [enclosures_of_inner hn he]
    refine .cons ⟨hf.scope, ?_⟩ hrest
    cases tracking <;> simp [ownBlocks_eq, hf.blocks]

theorem forall₂_closeBlock {table : ScopeTable} {tracking : Bool} {fs : List Frame} {n : Node}
    {around : List Node} (hn : n.kind.isContext = false)
    (h : List.Forall₂ (Mirrors table tracking) fs (enclosures (n :: around))) :
    List.Forall₂ (Mirrors table tracking)
      (onInnermost (fun f => { f with
        blocks := f.blocks.drop (Pass.ownBlocks tracking n).length }) fs)
      (enclosures around) := by
  cases he : enclosures around with
  | nil =>
    rw [enclosures_of_outside hn he, List.forall₂_nil_right_iff] at h
    exact h ▸ .nil
  | cons e es =>
    rw [enclosures_of_inner hn he] at h
    obtain ⟨f, rest, hf, hrest, rfl⟩ := List.forall₂_cons_right_iff.mp h
    refine .cons ⟨hf.scope, ?_⟩ hrest
    have hblocks := hf.blocks
    cases tracking <;> simp_all [ownBlocks_eq]

namespace Walking

variable {d : Document} {t : Tree} {tracking : Bool} {k : Nat} {around : List Node} {p q : Pass}
  {n : Node}

theorem scopeId?_inj (h : Walking t tracking k around p) {id id' : NodeId} {i : ScopeId}
    (hi : p.table.scopeId? id = some i) (hi' : p.table.scopeId? id' = some i) : id = id' := by
  obtain ⟨-, s, hs, rfl, -⟩ := h.linked id i hi
  obtain ⟨-, s', hs', rfl, -⟩ := h.linked id' i hi'
  cases hs.symm.trans hs'
  rfl

theorem scopeId_lt (h : Walking t tracking k around p) {id : NodeId} {i : ScopeId}
    (hi : p.table.scopeId? id = some i) : i < p.table.scopes.size := by
  obtain ⟨-, s, hs, -⟩ := h.linked id i hi
  exact (Array.getElem?_eq_some_iff.mp hs).1

/-- A step that adds no scope and keeps every link. -/
theorem of_kept (h : Walking t tracking k around p) {k' : Nat} {around' : List Node}
    (hk : k ≤ k')
    (hnew : ∀ c above, (c, above) ∈ t.sites → c.kind.isContext = true → c.id < k' → c.id < k)
    (hsize : q.table.info.size = p.table.info.size)
    (hid : ∀ id, q.table.scopeId? id = p.table.scopeId? id)
    (hscopes : ∀ (i : ScopeId) (s : FunctionScope), p.table.scopes[i]? = some s →
      ∃ s' : FunctionScope, q.table.scopes[i]? = some s' ∧ s'.node = s.node ∧ s'.parent = s.parent)
    (hframes : List.Forall₂ (Mirrors q.table tracking) q.frames (enclosures around')) :
    Walking t tracking k' around' q where
  size := hsize.trans h.size
  frames := hframes
  linked id i hi := by
    obtain ⟨hlt, s, hs, rfl, hp⟩ := h.linked id i (hid id ▸ hi)
    obtain ⟨s', hs', hn, hparent⟩ := hscopes i s hs
    exact ⟨Nat.lt_of_lt_of_le hlt hk, s', hs', hn, fun j hj => hp j (hparent ▸ hj)⟩
  owned c above hc hcontext hlt := by
    obtain ⟨s, hs, hparent⟩ := h.owned c above hc hcontext (hnew c above hc hcontext hlt)
    obtain ⟨i, hi, hs⟩ := ScopeTable.functionScope?_eq_some.mp hs
    obtain ⟨s', hs', -, hp⟩ := hscopes i s hs
    refine ⟨s', ScopeTable.functionScope?_eq_some.mpr ⟨i, (hid _).trans hi, hs'⟩, ?_⟩
    simp only [hid, hp, hparent]

/-- The scopes around a node stay those of their contexts when it is noted in them. -/
theorem scopes_noted (p : Pass) (tracking : Bool) (parent : Option Node) (n : Node)
    {i : ScopeId} {s : FunctionScope} (hs : p.table.scopes[i]? = some s) :
    ∃ s', (p.modifyInnermost (FunctionScope.note tracking parent n)).scopes[i]? = some s' ∧
      s'.SameContext s := by
  unfold Pass.modifyInnermost
  split
  · exact ⟨s, hs, ⟨rfl, rfl, rfl, rfl, rfl⟩⟩
  · rw [ScopeTable.scopes_modifyScope, hs]
    split
    · exact ⟨_, rfl, FunctionScope.sameContext_note ..⟩
    · exact ⟨s, rfl, ⟨rfl, rfl, rfl, rfl, rfl⟩⟩

theorem size_info_modifyInnermost (p : Pass) (f : FunctionScope → FunctionScope) :
    (p.modifyInnermost f).info.size = p.table.info.size := by
  unfold Pass.modifyInnermost
  split <;> rfl

theorem scopeId?_modifyInnermost (p : Pass) (f : FunctionScope → FunctionScope) (id : NodeId) :
    (p.modifyInnermost f).scopeId? id = p.table.scopeId? id := by
  unfold Pass.modifyInnermost
  split <;> rfl

/-- The nodes numbered up to a node that is no context hold the contexts numbered below it. -/
theorem context_lt (ht : Tree.ofDocument d = .ok t) (hn : (n, around) ∈ t.sites)
    (hcontext : n.kind.isContext = false) (c : Node) (above : List Node)
    (hc : (c, above) ∈ t.sites) (hk : c.kind.isContext = true) (hlt : c.id < n.id + 1) :
    c.id < n.id := by
  refine Nat.lt_of_le_of_ne (Nat.le_of_lt_succ hlt) fun he => ?_
  cases Tree.site_unique ht hc hn he
  simp [hcontext] at hk

/-- The innermost frame is that of the nearest context. -/
theorem head?_frames (h : Walking t tracking k around p) :
    p.frames.head?.map (·.scope) =
      (nearestContext? around).bind fun c => p.table.scopeId? c.id := by
  have hframes := h.frames
  rw [← head?_enclosures]
  cases he : enclosures around with
  | nil =>
    rw [he, List.forall₂_nil_right_iff] at hframes
    simp [hframes]
  | cons e es =>
    rw [he] at hframes
    obtain ⟨f, rest, hf, -, hfs⟩ := List.forall₂_cons_right_iff.mp hframes
    simp [hfs, hf.scope]

/-- A change of the innermost scope is a change of the scope of the nearest context. -/
theorem functionScope?_modifyInnermost (h : Walking t tracking k around p)
    (g : FunctionScope → FunctionScope) (id : NodeId) :
    (p.modifyInnermost g).functionScope? id =
      if (nearestContext? around).map (·.id) = some id then (p.table.functionScope? id).map g
      else p.table.functionScope? id := by
  have hframes := h.frames
  rw [← head?_enclosures]
  unfold Pass.modifyInnermost
  cases he : enclosures around with
  | nil =>
    rw [he, List.forall₂_nil_right_iff] at hframes
    simp [hframes]
  | cons e es =>
    rw [he] at hframes
    obtain ⟨f, rest, hf, -, hfs⟩ := List.forall₂_cons_right_iff.mp hframes
    have hiff : p.table.scopeId? id = some f.scope ↔ e.context.id = id :=
      ⟨fun hid => h.scopeId?_inj hf.scope hid, fun hid => hid ▸ hf.scope⟩
    simp only [hfs, ScopeTable.functionScope?_modifyScope, hiff, List.head?_cons, Option.map_some,
      Option.some.injEq]

section Context

variable (hcontext : n.kind.isContext = true) (h : Walking t tracking n.id around p)
  (hsize : n.id < t.size) (parent : Option Node)

include hcontext h hsize

theorem scopeId?_begin_context (id : NodeId) :
    (p.begin tracking parent n).table.scopeId? id =
      if id = n.id then some p.table.scopes.size else p.table.scopeId? id := by
  have hnode : (Pass.entered tracking (p.frames.head?.map (·.scope)) n).node = n.id :=
    (Pass.sameContext_entered ..).node
  have hlt : n.id < (p.modifyInnermost (FunctionScope.note tracking parent n)).info.size := by
    rw [size_info_modifyInnermost, h.size]
    exact hsize
  obtain ⟨-, htable⟩ := Pass.begin_context p tracking parent hcontext
  rw [htable.scopeId? id, ScopeTable.scopeId?_pushScope (by rw [hnode]; exact hlt), hnode,
    Pass.size_modifyInnermost, scopeId?_modifyInnermost]

theorem functionScope?_begin_context (id : NodeId) :
    (p.begin tracking parent n).table.functionScope? id =
      if id = n.id then some (Pass.entered tracking (p.frames.head?.map (·.scope)) n)
      else (p.modifyInnermost (FunctionScope.note tracking parent n)).functionScope? id := by
  have hnode : (Pass.entered tracking (p.frames.head?.map (·.scope)) n).node = n.id :=
    (Pass.sameContext_entered ..).node
  have hlt : n.id < (p.modifyInnermost (FunctionScope.note tracking parent n)).info.size := by
    rw [size_info_modifyInnermost, h.size]
    exact hsize
  obtain ⟨-, htable⟩ := Pass.begin_context p tracking parent hcontext
  rw [htable.functionScope? id,
    ScopeTable.functionScope?_pushScope (by rw [hnode]; exact hlt), hnode]
  intro id' i hi
  rw [scopeId?_modifyInnermost] at hi
  rw [Pass.size_modifyInnermost]
  exact h.scopeId_lt hi

end Context

/-- The way into a node. -/
theorem «begin» (ht : Tree.ofDocument d = .ok t) (hn : (n, around) ∈ t.sites)
    (h : Walking t tracking n.id around p) (parent : Option Node) :
    Walking t tracking (n.id + 1) (n :: around) (p.begin tracking parent n) := by
  cases hcontext : n.kind.isContext with
  | false =>
    have hnew := fun c above => context_lt ht hn hcontext c above
    cases href : n.reference? with
    | some name =>
      have hk := Node.kind_of_reference? href
      have htable : (p.begin tracking parent n).table = p.table := by
        rw [Pass.begin_reference href, Pass.table_reference]
      refine h.of_kept (Nat.le_succ _) hnew (by rw [htable]) (by simp [htable])
        (fun i s hs => ⟨s, htable ▸ hs, rfl, rfl⟩) ?_
      rw [enclosures_of_plain hcontext (by simp [hk, Kind.opensBlock])]
      refine forall₂_mirrors h.frames (by simp [htable]) ?_
      rw [Pass.begin_reference href, Pass.map_place_reference]
    | none =>
      obtain ⟨hframes, htable⟩ :=
        Pass.begin_inner p tracking parent href hcontext
      have hid (id : NodeId) :
          (p.begin tracking parent n).table.scopeId? id = p.table.scopeId? id :=
        (htable.scopeId? id).trans (scopeId?_modifyInnermost p _ id)
      refine h.of_kept (Nat.le_succ _) hnew ?_ hid ?_ ?_
      · rw [htable.size, size_info_modifyInnermost]
      · intro i s hs
        obtain ⟨s', hs', hsame⟩ := scopes_noted p tracking parent n hs
        exact ⟨s', htable.scopes ▸ hs', hsame.node, hsame.parent⟩
      · rw [hframes]
        exact forall₂_openBlock hcontext (forall₂_mirrors h.frames hid rfl)
  | true =>
    have hsize : n.id < t.size := Tree.id_lt_size ht hn
    have hid := scopeId?_begin_context hcontext h hsize parent
    have hold {id : NodeId} {i : ScopeId} (hi : p.table.scopeId? id = some i) :
        (p.begin tracking parent n).table.scopeId? id = some i := by
      rw [hid, if_neg (Nat.ne_of_lt (h.linked id i hi).1), hi]
    obtain ⟨hframes, htable⟩ :=
      Pass.begin_context p tracking parent hcontext
    have hentered := Pass.sameContext_entered tracking (p.frames.head?.map (·.scope)) n
    refine ⟨?_, ?_, ?_, ?_⟩
    · rw [htable.size, ScopeTable.size_info_pushScope, size_info_modifyInnermost, h.size]
    · rw [hframes, enclosures_of_context hcontext]
      refine .cons ⟨by rw [hid, if_pos rfl], ownBlocks_eq tracking n⟩ ?_
      exact h.frames.imp fun f e hf => ⟨hold hf.scope, hf.blocks⟩
    · intro id i hi
      rw [hid] at hi
      rw [htable.scopes, ScopeTable.scopes_pushScope]
      split at hi
      · next he =>
        subst he
        cases hi
        refine ⟨Nat.lt_succ_self _, _, ?_, hentered.node, fun j hj => ?_⟩
        · rw [← Pass.size_modifyInnermost, Array.getElem?_push_size]
        · rw [hentered.parent] at hj
          obtain ⟨c, -, hj⟩ := Option.bind_eq_some_iff.mp (h.head?_frames.symm.trans hj)
          exact h.scopeId_lt hj
      · obtain ⟨hlt, s, hs, rfl, hparent⟩ := h.linked id i hi
        obtain ⟨s', hs', hsame⟩ := scopes_noted p tracking parent n hs
        have hi' := (Array.getElem?_eq_some_iff.mp hs').1
        refine ⟨Nat.lt_succ_of_lt hlt, s', ?_, hsame.node,
          fun j hj => hparent j (hsame.parent ▸ hj)⟩
        rw [Array.getElem?_push_lt hi', ← hs', Array.getElem?_eq_getElem]
    · intro c above hc hk hlt
      have hnearest : ((nearestContext? above).bind fun c' =>
          (p.begin tracking parent n).table.scopeId? c'.id) =
          (nearestContext? above).bind fun c' => p.table.scopeId? c'.id := by
        refine Option.bind_congr fun c' hc' => ?_
        have hc' := Tree.id_lt_of_mem_around ht hc c' (List.mem_of_find?_eq_some hc')
        rw [hid, if_neg (Nat.ne_of_lt (Nat.lt_of_lt_of_le hc' (Nat.le_of_lt_succ hlt)))]
      rw [hnearest, functionScope?_begin_context hcontext h hsize parent]
      by_cases he : c.id = n.id
      · cases Tree.site_unique ht hc hn he
        refine ⟨_, if_pos rfl, hentered.parent.trans ?_⟩
        exact h.head?_frames
      · obtain ⟨s, hs, hparent⟩ := h.owned c above hc hk
          (Nat.lt_of_le_of_ne (Nat.le_of_lt_succ hlt) he)
        obtain ⟨i, hi, hs⟩ := ScopeTable.functionScope?_eq_some.mp hs
        obtain ⟨s', hs', hsame⟩ := scopes_noted p tracking parent n hs
        refine ⟨s', ?_, hsame.parent.trans hparent⟩
        rw [if_neg he]
        exact ScopeTable.functionScope?_eq_some.mpr
          ⟨i, (scopeId?_modifyInnermost ..).trans hi, hs'⟩

/-- The way out of a node. -/
theorem finish (h : Walking t tracking k (n :: around) p) :
    Walking t tracking k around (p.finish tracking n) := by
  cases hcontext : n.kind.isContext with
  | false =>
    obtain ⟨hframes, htable⟩ := Pass.finish_inner p tracking hcontext
    refine h.of_kept (Nat.le_refl k) (fun _ _ _ _ hlt => hlt) htable.size htable.scopeId?
      (fun i s hs => ⟨s, htable.scopes ▸ hs, rfl, rfl⟩) ?_
    rw [hframes]
    exact forall₂_closeBlock hcontext (forall₂_mirrors h.frames htable.scopeId? rfl)
  | true =>
    have hfs := h.frames
    rw [enclosures_of_context hcontext] at hfs
    obtain ⟨f, rest, -, hrest, hf⟩ := List.forall₂_cons_right_iff.mp hfs
    obtain ⟨hframes, htable⟩ := Pass.finish_context tracking hcontext hf
    refine h.of_kept (Nat.le_refl k) (fun _ _ _ _ hlt => hlt) htable.size htable.scopeId? ?_ ?_
    · intro i s hs
      rw [htable.scopes, ScopeTable.scopes_modifyScope, hs]
      split
      · exact ⟨_, rfl, rfl, rfl⟩
      · exact ⟨s, rfl, rfl, rfl⟩
    · rw [hframes]
      exact forall₂_mirrors hrest htable.scopeId?
        (map_place_onInnermost (Frame.place_foldl_addRef _) rest)

/-- On the way into a node, the scope of the nearest context notes it and no other changes. -/
theorem functionScope?_begin (ht : Tree.ofDocument d = .ok t) (hn : (n, around) ∈ t.sites)
    (h : Walking t tracking n.id around p) (parent : Option Node) {id : NodeId} (hid : id ≠ n.id) :
    (p.begin tracking parent n).table.functionScope? id =
      if (nearestContext? around).map (·.id) = some id then
        (p.table.functionScope? id).map (FunctionScope.note tracking parent n)
      else p.table.functionScope? id := by
  cases hcontext : n.kind.isContext with
  | true =>
    rw [functionScope?_begin_context hcontext h (Tree.id_lt_size ht hn), if_neg hid,
      h.functionScope?_modifyInnermost]
  | false =>
    cases href : n.reference? with
    | some name =>
      have hnote : FunctionScope.note tracking parent n = fun s => s := by
        funext s
        exact FunctionScope.note_of_identifier (Node.kind_of_reference? href) tracking parent s
      rw [Pass.begin_reference href, Pass.table_reference, hnote, Option.map_id', ite_self]
    | none =>
      obtain ⟨-, htable⟩ :=
        Pass.begin_inner p tracking parent href hcontext
      rw [htable.functionScope?, h.functionScope?_modifyInnermost]

/-- On the way out of a node, a scope changes in its captured and free names at most. -/
theorem functionScope?_finish (h : Walking t tracking k (n :: around) p) {id : NodeId}
    {s : FunctionScope} (hs : p.table.functionScope? id = some s) :
    ∃ upvars freevars, (p.finish tracking n).table.functionScope? id =
      some { s with upvars := upvars, freevars := freevars } := by
  cases hcontext : n.kind.isContext with
  | false =>
    obtain ⟨-, htable⟩ := Pass.finish_inner p tracking hcontext
    exact ⟨s.upvars, s.freevars, (htable.functionScope? id).trans hs⟩
  | true =>
    have hfs := h.frames
    rw [enclosures_of_context hcontext] at hfs
    obtain ⟨f, rest, -, hrest, hf⟩ := List.forall₂_cons_right_iff.mp hfs
    obtain ⟨-, htable⟩ := Pass.finish_context tracking hcontext hf
    rw [htable.functionScope?, ScopeTable.functionScope?_modifyScope, hs]
    split
    · exact ⟨_, _, rfl⟩
    · exact ⟨s.upvars, s.freevars, rfl⟩

end Walking

/-! ## Whole walks -/

namespace Pass

theorem visitAll_eq (tracking : Bool) (parent : Node) (ns : List Node) (p : Pass) :
    visitAll tracking parent ns p =
      ns.foldl (fun p c => visit tracking (some parent) c p) p := by
  induction ns generalizing p with
  | nil => rfl
  | cons c rest ih => exact ih _

theorem visit_eq (tracking : Bool) (parent : Option Node) (n : Node) (p : Pass) :
    visit tracking parent n p =
      (n.children.foldl (fun p c => visit tracking (some n) c p)
        (p.begin tracking parent n)).finish tracking n := by
  cases n
  simp only [visit, visitAll_eq]

end Pass

theorem Walking.start (t : Tree) (tracking : Bool) :
    Walking t tracking 0 [] ⟨[], .blank t.size⟩ where
  size := by simp [ScopeTable.blank]
  frames := .nil
  linked id i hi := by
    simp only [ScopeTable.scopeId?, ScopeTable.blank, Array.getElem?_replicate] at hi
    split at hi <;> cases hi
  owned _ _ _ _ hlt := absurd hlt (Nat.not_lt_zero _)

section

variable {d : Document} {t : Tree} {tracking : Bool} {J : Nat → List Node → Pass → Prop}

/-- What every way into a node and every way out of it keeps, the walk of a node keeps. -/
theorem Walking.visit (ht : Tree.ofDocument d = .ok t)
    (hbegin : ∀ {n around p}, (n, around) ∈ t.sites → Walking t tracking n.id around p →
      J n.id around p → J (n.id + 1) (n :: around) (p.begin tracking around.head? n))
    (hfinish : ∀ {n around k p}, (n, around) ∈ t.sites → n.id < k →
      Walking t tracking k (n :: around) p → J k (n :: around) p →
      J k around (p.finish tracking n))
    {n : Node} {around : List Node} (hn : (n, around) ∈ t.sites) {i j : Nat} (hs : n.Spans i j)
    {p : Pass} (hw : Walking t tracking i around p) (hJ : J i around p) :
    Walking t tracking j around (Pass.visit tracking around.head? n p) ∧
      J j around (Pass.visit tracking around.head? n p) := by
  refine Tree.walk_induct
    (fun n around i j => ∀ p, Walking t tracking i around p → J i around p →
      Walking t tracking j around (Pass.visit tracking around.head? n p) ∧
        J j around (Pass.visit tracking around.head? n p))
    (fun ns around i j => ∀ p, Walking t tracking i around p → J i around p →
      Walking t tracking j around
          (ns.foldl (fun p c => Pass.visit tracking around.head? c p) p) ∧
        J j around (ns.foldl (fun p c => Pass.visit tracking around.head? c p) p))
    ?below ?nil ?cons hn hs p hw hJ
  case below =>
    intro n around j hn hlt hbelow p hw hJ
    obtain ⟨hw', hJ'⟩ := hbelow _ (hw.begin ht hn around.head?) (hbegin hn hw hJ)
    rw [Pass.visit_eq]
    exact ⟨hw'.finish, hfinish hn hlt hw' hJ'⟩
  case nil =>
    intro around i p hw hJ
    exact ⟨hw, hJ⟩
  case cons =>
    intro c rest around i mid j _ _ hfirst hothers p hw hJ
    obtain ⟨hw', hJ'⟩ := hfirst p hw hJ
    exact hothers _ hw' hJ'

/-- What every way into a node and every way out of it keeps holds at the end of an annotation. -/
theorem annotate_induct (tracking : Bool) (ht : Tree.ofDocument d = .ok t)
    (hbegin : ∀ {n around p}, (n, around) ∈ t.sites → Walking t tracking n.id around p →
      J n.id around p → J (n.id + 1) (n :: around) (p.begin tracking around.head? n))
    (hfinish : ∀ {n around k p}, (n, around) ∈ t.sites → n.id < k →
      Walking t tracking k (n :: around) p → J k (n :: around) p →
      J k around (p.finish tracking n))
    (hstart : J 0 [] ⟨[], .blank t.size⟩) :
    ∃ p : Pass, annotate tracking t = p.table ∧ p.frames = [] ∧
      Walking t tracking t.size [] p ∧ J t.size [] p := by
  obtain ⟨hw, hJ⟩ := Walking.visit ht hbegin hfinish (Node.self_mem_sites t.root [])
    (Tree.sound_ofDocument ht).1 (Walking.start t tracking) hstart
  exact ⟨_, rfl, List.forall₂_nil_right_iff.mp hw.frames, hw, hJ⟩

end

/-! ## Scopes and their contexts -/

section

variable {d : Document} {t : Tree} {tracking : Bool} {k : Nat} {n : Node} {around : List Node}
  {p : Pass}

/-- Every scope belongs to a context reached so far. -/
def Attributed (t : Tree) (k : Nat) (p : Pass) : Prop :=
  ∀ i < p.table.scopes.size, ∃ c above, (c, above) ∈ t.sites ∧ c.kind.isContext = true ∧
    c.id < k ∧ p.table.scopeId? c.id = some i

namespace Attributed

theorem «begin» (ht : Tree.ofDocument d = .ok t) (hn : (n, around) ∈ t.sites)
    (hw : Walking t tracking n.id around p) (h : Attributed t n.id p) (parent : Option Node) :
    Attributed t (n.id + 1) (p.begin tracking parent n) := by
  intro i hi
  have hold (hi : i < p.table.scopes.size)
      (hid : ∀ id < n.id, (p.begin tracking parent n).table.scopeId? id = p.table.scopeId? id) :
      ∃ c above, (c, above) ∈ t.sites ∧ c.kind.isContext = true ∧ c.id < n.id + 1 ∧
        (p.begin tracking parent n).table.scopeId? c.id = some i := by
    obtain ⟨c, above, hc, hk, hlt, hscope⟩ := h i hi
    exact ⟨c, above, hc, hk, Nat.lt_succ_of_lt hlt, (hid c.id hlt).trans hscope⟩
  cases hcontext : n.kind.isContext with
  | false =>
    cases href : n.reference? with
    | some name =>
      rw [Pass.begin_reference href, Pass.table_reference] at hi
      exact hold hi fun id _ => by rw [Pass.begin_reference href, Pass.table_reference]
    | none =>
      obtain ⟨-, htable⟩ := Pass.begin_inner p tracking parent href hcontext
      rw [htable.scopes, Pass.size_modifyInnermost] at hi
      exact hold hi fun id _ =>
        (htable.scopeId? id).trans (Walking.scopeId?_modifyInnermost p _ id)
  | true =>
    have hid := Walking.scopeId?_begin_context hcontext hw (Tree.id_lt_size ht hn) parent
    obtain ⟨-, htable⟩ := Pass.begin_context p tracking parent hcontext
    rw [htable.scopes, ScopeTable.scopes_pushScope, Array.size_push, Pass.size_modifyInnermost]
      at hi
    rcases Nat.lt_succ_iff_lt_or_eq.mp hi with hi | rfl
    · exact hold hi fun id hlt => by rw [hid, if_neg (Nat.ne_of_lt hlt)]
    · exact ⟨n, around, hn, hcontext, Nat.lt_succ_self _, by rw [hid, if_pos rfl]⟩

theorem finish (hw : Walking t tracking k (n :: around) p) (h : Attributed t k p) :
    Attributed t k (p.finish tracking n) := by
  obtain ⟨hsize, hid⟩ : (p.finish tracking n).table.scopes.size = p.table.scopes.size ∧
      ∀ id, (p.finish tracking n).table.scopeId? id = p.table.scopeId? id := by
    cases hcontext : n.kind.isContext with
    | false =>
      obtain ⟨-, htable⟩ := Pass.finish_inner p tracking hcontext
      exact ⟨by rw [htable.scopes], htable.scopeId?⟩
    | true =>
      have hframes := hw.frames
      rw [enclosures_of_context hcontext] at hframes
      obtain ⟨f, rest, -, -, hfs⟩ := List.forall₂_cons_right_iff.mp hframes
      obtain ⟨-, htable⟩ := Pass.finish_context tracking hcontext hfs
      exact ⟨by rw [htable.scopes, ScopeTable.size_scopes_modifyScope], htable.scopeId?⟩
  intro i hi
  rw [hsize] at hi
  obtain ⟨c, above, hc, hk, hlt, hscope⟩ := h i hi
  exact ⟨c, above, hc, hk, hlt, (hid c.id).trans hscope⟩

end Attributed

/-- Every scope of a finished table is that of a context of the tree. -/
theorem exists_context_of_scope (tracking : Bool) (ht : Tree.ofDocument d = .ok t)
    {s : FunctionScope} (hs : s ∈ (annotate tracking t).scopes) :
    ∃ c above, (c, above) ∈ t.sites ∧ c.kind.isContext = true ∧
      (annotate tracking t).functionScope? c.id = some s := by
  obtain ⟨p, hp, -, -, h⟩ := annotate_induct tracking (J := fun k _ p => Attributed t k p) ht
    (fun hn hw h => h.begin ht hn hw _) (fun _ _ hw h => h.finish hw)
    (fun i hi => absurd hi (Nat.not_lt_zero i))
  rw [hp] at hs ⊢
  obtain ⟨i, hi, rfl⟩ := Array.mem_iff_getElem.mp hs
  obtain ⟨c, above, hc, hk, -, hscope⟩ := h i hi
  exact ⟨c, above, hc, hk, ScopeTable.functionScope?_eq_some.mpr
    ⟨i, hscope, Array.getElem?_eq_getElem hi⟩⟩

end

end ScriptSandbox.Scope
