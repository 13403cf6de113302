import Mathlib.Order.Bounds.Basic
import ScriptSandbox.Proofs.Scope.Hoisting
import ScriptSandbox.Proofs.Scope.Walk

/-
  The tables of a context.

  A name in a table of a context maps to the last node that declares it. Hoisting writes names early
  and the walk writes them again, in the order of the numbers: while the walk is under way, a table
  is `Latest`, that is, it has for each name the greatest number of the nodes reached that declare
  it, and else what was there on entry. At the end nothing hoisted is left unvisited, so the tables
  of a context list its declarations exactly (`binding_tables_exact`).
-/

namespace ScriptSandbox.Scope

open Syntax

/-! ## What declares a name -/

/-- The names bound by the parameter patterns of a context. -/
def parameterNames (n : Node) : List String :=
  (((n.data? "params").bind Document.array?).getD []).flatMap patternNames

/-- The nodes that bind a name throughout a context. -/
inductive VarBinding (t : Tree) (c : Node) (name : String) : NodeId → Prop
  | parameter (h : name ∈ parameterNames c) : VarBinding t c name c.id
  | ownName (hk : c.kind = .functionExpression) (h : nameOf? c = some name) :
    VarBinding t c name c.id
  | declarator {m : Node} {path : List Node} (hm : (m, path) ∈ t.sites)
    (hc : nearestContext? path = some c) (hk : m.kind = .variableDeclarator)
    (hb : declaratorBinding path.head? = .var) (h : name ∈ fieldNames m "id") :
    VarBinding t c name m.id
  | function {m : Node} {path : List Node} (hm : (m, path) ∈ t.sites)
    (hc : nearestContext? path = some c) (hk : m.kind = .functionDeclaration)
    (h : nameOf? m = some name) : VarBinding t c name m.id

/-- The function declarations of a name in a context. -/
inductive FunctionBinding (t : Tree) (c : Node) (name : String) : NodeId → Prop
  | function {m : Node} {path : List Node} (hm : (m, path) ∈ t.sites)
    (hc : nearestContext? path = some c) (hk : m.kind = .functionDeclaration)
    (h : nameOf? m = some name) : FunctionBinding t c name m.id

/-- The block-scoped declarations of a name in a context. -/
inductive LexicalBinding (t : Tree) (c : Node) (name : String) : NodeId → Prop
  | declarator {m : Node} {path : List Node} (hm : (m, path) ∈ t.sites)
    (hc : nearestContext? path = some c) (hk : m.kind = .variableDeclarator)
    (hb : declaratorBinding path.head? = .lexical) (h : name ∈ fieldNames m "id") :
    LexicalBinding t c name m.id
  | classDeclaration {m : Node} {path : List Node} (hm : (m, path) ∈ t.sites)
    (hc : nearestContext? path = some c) (hk : m.kind = .classDeclaration)
    (h : nameOf? m = some name) : LexicalBinding t c name m.id
  | catchParameter {m : Node} {path : List Node} (hm : (m, path) ∈ t.sites)
    (hc : nearestContext? path = some c) (hk : m.kind = .catchClause)
    (h : name ∈ fieldNames m "param") : LexicalBinding t c name m.id

/-- A table lists exactly the names that are declared, each with the greatest of the nodes that
    declare it. -/
structure Lists (table : Table NodeId) (declares : String → NodeId → Prop) : Prop where
  names : ∀ name, table.contains name = true ↔ ∃ node, declares name node
  greatest : ∀ name node, table.find? name = some node → IsGreatest {m | declares name m} node

/-! ## Tables while the walk is under way -/

variable {d : Document} {t : Tree} {tracking : Bool} {k : Nat} {n c : Node}
  {around above : List Node} {table table' base : Table NodeId}
  {declares : Option Node → Node → String → Prop}

/-- The nodes of a context, of those numbered below `k`, that declare a name. -/
def declarers (t : Tree) (declares : Option Node → Node → String → Prop) (c : Node) (k : Nat)
    (name : String) : Set NodeId :=
  {id | id < k ∧ ∃ m path, (m, path) ∈ t.sites ∧ m.id = id ∧ nearestContext? path = some c ∧
    declares path.head? m name}

/-- A table has for each name the last of the nodes below `k` that declare it, and else what `base`
    has. -/
def Latest (t : Tree) (declares : Option Node → Node → String → Prop) (c : Node) (k : Nat)
    (base table : Table NodeId) : Prop :=
  ∀ name, (∃ id, table.find? name = some id ∧ IsGreatest (declarers t declares c k name) id) ∨
    declarers t declares c k name = ∅ ∧ table.find? name = base.find? name

theorem mem_declarers_succ (ht : Tree.ofDocument d = .ok t) (hn : (n, around) ∈ t.sites)
    {name : String} {id : NodeId} :
    id ∈ declarers t declares c (n.id + 1) name ↔ id ∈ declarers t declares c n.id name ∨
      id = n.id ∧ nearestContext? around = some c ∧ declares around.head? n name := by
  constructor
  · rintro ⟨hlt, m, path, hm, rfl, hc, hd⟩
    rcases Nat.lt_succ_iff_lt_or_eq.mp hlt with hlt | he
    · exact .inl ⟨hlt, m, path, hm, rfl, hc, hd⟩
    · cases Tree.site_unique ht hm hn he
      exact .inr ⟨rfl, hc, hd⟩
  · rintro (⟨hlt, h⟩ | ⟨rfl, hc, hd⟩)
    · exact ⟨Nat.lt_succ_of_lt hlt, h⟩
    · exact ⟨Nat.lt_succ_self _, n, around, hn, rfl, hc, hd⟩

/-- A node outside the context changes nothing. -/
theorem Latest.skip (ht : Tree.ofDocument d = .ok t) (hn : (n, around) ∈ t.sites)
    (hc : nearestContext? around ≠ some c) (h : Latest t declares c n.id base table) :
    Latest t declares c (n.id + 1) base table := by
  have hsame (name : String) :
      declarers t declares c (n.id + 1) name = declarers t declares c n.id name := by
    ext id
    simp [mem_declarers_succ ht hn, hc]
  intro name
  rw [hsame]
  exact h name

/-- A node of the context writes its number at the names that it declares. -/
theorem Latest.add (ht : Tree.ofDocument d = .ok t) (hn : (n, around) ∈ t.sites)
    (hc : nearestContext? around = some c) (h : Latest t declares c n.id base table)
    (hdecl : ∀ name, declares around.head? n name → table'.find? name = some n.id)
    (hkeep : ∀ name, ¬ declares around.head? n name → table'.find? name = table.find? name) :
    Latest t declares c (n.id + 1) base table' := by
  intro name
  by_cases hd : declares around.head? n name
  · refine .inl ⟨n.id, hdecl name hd, (mem_declarers_succ ht hn).mpr (.inr ⟨rfl, hc, hd⟩), ?_⟩
    exact fun id hid => Nat.le_of_lt_succ hid.1
  · have hsame : declarers t declares c (n.id + 1) name = declarers t declares c n.id name := by
      ext id
      simp [mem_declarers_succ ht hn, hd]
    rw [hsame, hkeep name hd]
    exact h name

/-- Nothing below a context is reached when the context is. -/
theorem latest_entered (ht : Tree.ofDocument d = .ok t) (base : Table NodeId) :
    Latest t declares n (n.id + 1) base base := by
  refine fun name => .inr ⟨Set.eq_empty_iff_forall_notMem.mpr ?_, rfl⟩
  rintro id ⟨hlt, m, path, hm, rfl, hc, -⟩
  have := Tree.id_lt_of_mem_around ht hm n (List.mem_of_find?_eq_some hc)
  exact Nat.lt_irrefl _ (Nat.lt_of_lt_of_le this (Nat.le_of_lt_succ hlt))

/-! ## What a node writes -/

namespace FunctionScope

/-- The table that declarations of a binding go into. -/
def tableOf (b : Binding) (s : FunctionScope) : Table NodeId :=
  match b with
  | .var => s.vars
  | .lexical => s.lexicals

/-- Whether declarations of a binding are recorded. -/
def Recorded (tracking : Bool) : Binding → Prop
  | .var => True
  | .lexical => tracking = true

theorem tableOf_recordIn (tracking : Bool) (b : Binding) (s : FunctionScope) (decl : Declaration) :
    (decl.binding = b ∧ Recorded tracking b →
      (recordIn tracking s decl).tableOf b = (s.tableOf b).insert decl.name decl.node) ∧
    (¬ (decl.binding = b ∧ Recorded tracking b) →
      (recordIn tracking s decl).tableOf b = s.tableOf b) := by
  obtain ⟨name, node, binding⟩ := decl
  cases b <;> cases binding <;> cases tracking <;> simp [recordIn, tableOf, Recorded]

/-- A name is found at one of the declarations recorded, or none of them declares it and it is
    found where it was. -/
theorem find?_foldl_recordIn (tracking : Bool) (b : Binding) (ds : List Declaration)
    (s : FunctionScope) (name : String) :
    (Recorded tracking b ∧ ∃ decl ∈ ds, decl.binding = b ∧ decl.name = name ∧
      ((ds.foldl (recordIn tracking) s).tableOf b).find? name = some decl.node) ∨
    (Recorded tracking b → ∀ decl ∈ ds, decl.binding = b → decl.name ≠ name) ∧
      ((ds.foldl (recordIn tracking) s).tableOf b).find? name = (s.tableOf b).find? name := by
  induction ds generalizing s with
  | nil => exact .inr ⟨by simp, rfl⟩
  | cons decl ds ih =>
    obtain ⟨hinsert, hkeep⟩ := tableOf_recordIn tracking b s decl
    rcases ih (recordIn tracking s decl) with ⟨hr, decl', hmem, h⟩ | ⟨hnone, hfind⟩
    · exact .inl ⟨hr, decl', List.mem_cons_of_mem _ hmem, h⟩
    · by_cases hb : decl.binding = b ∧ Recorded tracking b
      · rw [hinsert hb, Table.find?_insert] at hfind
        split at hfind
        · next he => exact .inl ⟨hb.2, decl, List.mem_cons_self, hb.1, he.symm, hfind⟩
        · next he =>
          refine .inr ⟨fun hr => List.forall_mem_cons.mpr ⟨fun _ h => he h.symm, hnone hr⟩, hfind⟩
      · rw [hkeep hb] at hfind
        refine .inr ⟨fun hr => List.forall_mem_cons.mpr ⟨fun h => ?_, hnone hr⟩, hfind⟩
        exact absurd ⟨h, hr⟩ hb

theorem funcs_foldl_recordIn (tracking : Bool) (ds : List Declaration) (s : FunctionScope) :
    (ds.foldl (recordIn tracking) s).funcs = s.funcs := by
  refine List.foldlRecOn (motive := (FunctionScope.funcs · = s.funcs)) ds _ rfl fun s' h decl _ => ?_
  rw [← h]
  unfold recordIn
  repeat' first | split | rfl

theorem lexicals_foldl_recordIn (ds : List Declaration) (s : FunctionScope) :
    (ds.foldl (recordIn false) s).lexicals = s.lexicals := by
  refine List.foldlRecOn (motive := (FunctionScope.lexicals · = s.lexicals)) ds _ rfl
    fun s' h decl _ => ?_
  rw [← h]
  unfold recordIn
  split <;> rfl

end FunctionScope

/-- Whether a node under a parent makes a declaration of a binding. -/
def Makes (b : Binding) (parent : Option Node) (n : Node) (name : String) : Prop :=
  ⟨name, n.id, b⟩ ∈ declarations parent n

/-- Whether a node is a function declaration of a name. -/
def MakesFunction (_ : Option Node) (n : Node) (name : String) : Prop :=
  n.kind = .functionDeclaration ∧ nameOf? n = some name

theorem node_of_mem_declarations {parent : Option Node} {decl : Declaration}
    (h : decl ∈ declarations parent n) : decl.node = n.id := by
  unfold declarations declareAll at h
  split at h
  · obtain ⟨_, -, rfl⟩ := List.mem_map.mp h; rfl
  · obtain ⟨_, -, rfl⟩ := List.mem_map.mp h; rfl
  · obtain ⟨_, -, rfl⟩ := List.mem_map.mp h; rfl
  · obtain ⟨_, -, rfl⟩ := List.mem_map.mp h; rfl
  · cases h

theorem tableOf_noteFunction (b : Binding) (s : FunctionScope) :
    (s.noteFunction n).tableOf b = s.tableOf b := by
  unfold FunctionScope.noteFunction
  cases b <;> repeat' first | split | rfl

theorem find?_note {b : Binding} (hb : FunctionScope.Recorded tracking b) (parent : Option Node)
    (s : FunctionScope) (name : String) :
    (Makes b parent n name →
      ((s.note tracking parent n).tableOf b).find? name = some n.id) ∧
    (¬ Makes b parent n name →
      ((s.note tracking parent n).tableOf b).find? name = (s.tableOf b).find? name) := by
  have hmakes {decl : Declaration} (hmem : decl ∈ declarations parent n)
      (hbinding : decl.binding = b) : Makes b parent n decl.name := by
    obtain ⟨name', node, binding⟩ := decl
    cases node_of_mem_declarations hmem
    cases hbinding
    exact hmem
  rcases FunctionScope.find?_foldl_recordIn tracking b (declarations parent n)
    (s.noteFunction n) name with ⟨-, decl, hmem, hbinding, rfl, h⟩ | ⟨hnone, h⟩
  · rw [node_of_mem_declarations hmem] at h
    exact ⟨fun _ => h, fun hnot => absurd (hmakes hmem hbinding) hnot⟩
  · rw [tableOf_noteFunction] at h
    exact ⟨fun hmem => absurd rfl (hnone hb _ hmem rfl), fun _ => h⟩

theorem find?_funcs_note (parent : Option Node) (s : FunctionScope) (name : String) :
    (MakesFunction parent n name →
      (s.note tracking parent n).funcs.find? name = some n.id) ∧
    (¬ MakesFunction parent n name →
      (s.note tracking parent n).funcs.find? name = s.funcs.find? name) := by
  rw [FunctionScope.note, FunctionScope.funcs_foldl_recordIn]
  unfold FunctionScope.noteFunction MakesFunction
  by_cases hk : n.kind = .functionDeclaration
  · cases hname : nameOf? n with
    | none => simp [hk]
    | some name' =>
      by_cases he : name = name'
      · simp [hk, he]
      · simp [hk, he, Ne.symm he, Table.find?_insert]
  · simp [hk]

/-! ## The tables of every context -/

/-- The tables of a context when the numbers below `k` are given out. -/
structure Tabled (t : Tree) (tracking : Bool) (c : Node) (k : Nat) (s : FunctionScope) : Prop where
  tables : ∀ b, FunctionScope.Recorded tracking b →
    Latest t (Makes b) c k ((Pass.entered tracking s.parent c).tableOf b) (s.tableOf b)
  funcs : Latest t MakesFunction c k ∅ s.funcs
  untracked : tracking = false → s.lexicals = ∅
  bindsArguments :
    s.bindsArguments = (c.kind = .functionDeclaration || c.kind = .functionExpression)

theorem tabled_entered (ht : Tree.ofDocument d = .ok t) (parent : Option ScopeId) :
    Tabled t tracking n (n.id + 1) (Pass.entered tracking parent n) := by
  have hsame := Pass.sameContext_entered tracking parent n
  refine ⟨fun b _ => ?_, ?_, ?_, hsame.bindsArguments⟩
  · rw [show (Pass.entered tracking parent n).parent = parent from hsame.parent]
    exact latest_entered ht _
  · rw [show (Pass.entered tracking parent n).funcs = ∅ from
      FunctionScope.funcs_foldl_recordIn tracking _ _]
    exact latest_entered ht _
  · rintro rfl
    exact FunctionScope.lexicals_foldl_recordIn _ _

theorem Tabled.note (ht : Tree.ofDocument d = .ok t) (hn : (n, around) ∈ t.sites)
    (hc : nearestContext? around = some c) {s : FunctionScope} (h : Tabled t tracking c n.id s) :
    Tabled t tracking c (n.id + 1) (s.note tracking around.head? n) := by
  have hsame := FunctionScope.sameContext_note tracking around.head? n s
  refine ⟨fun b hb => ?_, ?_, ?_, hsame.bindsArguments.trans h.bindsArguments⟩
  · rw [hsame.parent]
    exact (h.tables b hb).add ht hn hc (fun name => (find?_note hb around.head? s name).1)
      fun name => (find?_note hb around.head? s name).2
  · exact h.funcs.add ht hn hc (fun name => (find?_funcs_note around.head? s name).1)
      fun name => (find?_funcs_note around.head? s name).2
  · rintro rfl
    have hlexicals := tableOf_noteFunction (n := n) .lexical s
    exact (FunctionScope.lexicals_foldl_recordIn _ _).trans (hlexicals.trans (h.untracked rfl))

theorem Tabled.skip (ht : Tree.ofDocument d = .ok t) (hn : (n, around) ∈ t.sites)
    (hc : nearestContext? around ≠ some c) {s : FunctionScope} (h : Tabled t tracking c n.id s) :
    Tabled t tracking c (n.id + 1) s :=
  ⟨fun b hb => (h.tables b hb).skip ht hn hc, h.funcs.skip ht hn hc, h.untracked, h.bindsArguments⟩

/-- Every context reached has its tables as they should be. -/
def AllTabled (t : Tree) (tracking : Bool) (k : Nat) (p : Pass) : Prop :=
  ∀ c above, (c, above) ∈ t.sites → c.kind.isContext = true → c.id < k →
    ∃ s, p.table.functionScope? c.id = some s ∧ Tabled t tracking c k s

theorem AllTabled.begin {p : Pass} (ht : Tree.ofDocument d = .ok t) (hn : (n, around) ∈ t.sites)
    (hw : Walking t tracking n.id around p) (h : AllTabled t tracking n.id p) :
    AllTabled t tracking (n.id + 1) (p.begin tracking around.head? n) := by
  intro c above hc hk hlt
  by_cases he : c.id = n.id
  · cases Tree.site_unique ht hc hn he
    refine ⟨_, ?_, tabled_entered ht (p.frames.head?.map (·.scope))⟩
    rw [Walking.functionScope?_begin_context hk hw (Tree.id_lt_size ht hn), if_pos rfl]
  · obtain ⟨s, hs, htab⟩ := h c above hc hk (Nat.lt_of_le_of_ne (Nat.le_of_lt_succ hlt) he)
    rw [hw.functionScope?_begin ht hn _ he, hs]
    by_cases hnear : nearestContext? around = some c
    · exact ⟨_, if_pos (by rw [hnear]; rfl), htab.note ht hn hnear⟩
    · refine ⟨s, if_neg fun hid => hnear ?_, htab.skip ht hn hnear⟩
      obtain ⟨c', hc', hid⟩ := Option.map_eq_some_iff.mp hid
      obtain ⟨_, above', -, hsite⟩ := Tree.exists_site_of_mem hn (List.mem_of_find?_eq_some hc')
      cases Tree.site_unique ht hsite hc hid
      exact hc'

theorem AllTabled.finish {p : Pass} (hw : Walking t tracking k (n :: around) p)
    (h : AllTabled t tracking k p) : AllTabled t tracking k (p.finish tracking n) := by
  intro c above hc hk hlt
  obtain ⟨s, hs, htab⟩ := h c above hc hk hlt
  obtain ⟨upvars, freevars, hs⟩ := hw.functionScope?_finish hs
  exact ⟨_, hs, ⟨htab.tables, htab.funcs, htab.untracked, htab.bindsArguments⟩⟩

theorem AllTabled.start (t : Tree) (tracking : Bool) (p : Pass) : AllTabled t tracking 0 p :=
  fun _ _ _ _ hlt => absurd hlt (Nat.not_lt_zero _)

theorem allTabled_annotate (tracking : Bool) (ht : Tree.ofDocument d = .ok t) :
    ∃ p : Pass, annotate tracking t = p.table ∧ p.frames = [] ∧ Walking t tracking t.size [] p ∧
      AllTabled t tracking t.size p :=
  annotate_induct tracking (J := fun k _ p => AllTabled t tracking k p) ht
    (fun hn hw h => h.begin ht hn hw) (fun _ _ hw h => h.finish hw) (.start t tracking _)

/-- The tables of an annotated tree. -/
theorem tabled_annotate (tracking : Bool) (ht : Tree.ofDocument d = .ok t)
    (hc : (c, above) ∈ t.sites) (hk : c.kind.isContext = true) :
    ∃ s, (annotate tracking t).functionScope? c.id = some s ∧ Tabled t tracking c t.size s := by
  obtain ⟨p, hp, -, -, h⟩ := allTabled_annotate tracking ht
  rw [hp]
  exact h c above hc hk (Tree.id_lt_size ht hc)

/-! ## The tables listed -/

/-- The names that a context binds by itself: its parameters, and its own name if it is a function
    expression. -/
def BindsItself (c : Node) (name : String) : Prop :=
  name ∈ parameterNames c ∨ c.kind = .functionExpression ∧ nameOf? c = some name

theorem find?_foldl_insert (names : List String) (table : Table NodeId) (id : NodeId)
    (name : String) :
    (names.foldl (fun table name => table.insert name id) table).find? name =
      if name ∈ names then some id else table.find? name := by
  induction names generalizing table with
  | nil => simp
  | cons other names ih =>
    rw [List.foldl_cons, ih, Table.find?_insert]
    by_cases hmem : name ∈ names <;> by_cases he : name = other <;> simp [hmem, he]

theorem find?_insertNew (table : Table NodeId) (own : String) (id : NodeId) (name : String) :
    (table.insertNew own id).find? name =
      (table.find? name).or (if name = own then some id else none) := by
  unfold Table.insertNew
  cases hown : table.find? own with
  | none =>
    rw [if_neg (by simp [Table.contains, hown]), Table.find?_insert]
    split
    · next he => rw [he, hown, Option.none_or]
    · rw [Option.or_none]
  | some id' =>
    rw [if_pos (by simp [Table.contains, hown])]
    split
    · next he => rw [he, hown, Option.some_or]
    · rw [Option.or_none]

/-- Before anything is hoisted, a context has the names that it binds by itself. -/
theorem find?_vars_freshScope (parent : Option ScopeId) (c : Node) (name : String) :
    (BindsItself c name → (Pass.freshScope parent c).vars.find? name = some c.id) ∧
    (¬ BindsItself c name → (Pass.freshScope parent c).vars.find? name = none) := by
  have hparams := find?_foldl_insert (parameterNames c) .empty c.id name
  rw [Table.find?_empty] at hparams
  have hvars : (Pass.freshScope parent c).vars.find? name =
      (if name ∈ parameterNames c then some c.id else none).or
        (if c.kind = .functionExpression ∧ nameOf? c = some name then some c.id else none) := by
    unfold Pass.freshScope
    rw [← hparams]
    by_cases hk : c.kind = .functionExpression
    · cases hname : nameOf? c with
      | none => simp [parameterNames, hk]
      | some own => simp [parameterNames, hk, find?_insertNew, eq_comm]
    · simp [parameterNames, hk]
  rw [hvars]
  unfold BindsItself
  by_cases hmem : name ∈ parameterNames c <;>
    by_cases hown : c.kind = .functionExpression ∧ nameOf? c = some name <;> simp [hmem, hown]

/-- At the end of a walk, a table lists what is declared, the names of `base` being those that the
    context binds by itself. -/
theorem Latest.lists {declared : String → NodeId → Prop} (h : Latest t declares c k base table)
    (binds : String → Prop)
    (hdeclared : ∀ name id, declared name id ↔
      id ∈ declarers t declares c k name ∨ binds name ∧ id = c.id)
    (hlow : ∀ name, ∀ id ∈ declarers t declares c k name, c.id ≤ id)
    (hbase : ∀ name, declarers t declares c k name = ∅ →
      (binds name → base.find? name = some c.id) ∧ (¬ binds name → base.find? name = none)) :
    Lists table declared := by
  have hgreatest : ∀ name id, table.find? name = some id →
      IsGreatest {m | declared name m} id := by
    intro name id hid
    rcases h name with ⟨id', hid', hmem, hmax⟩ | ⟨hempty, hfind⟩
    · cases hid'.symm.trans hid
      refine ⟨(hdeclared name _).mpr (.inl hmem), fun m hm => ?_⟩
      rcases (hdeclared name m).mp hm with hm | ⟨-, rfl⟩
      · exact hmax hm
      · exact hlow name _ hmem
    · rw [hid] at hfind
      have hbinds : binds name := by
        by_contra hnot
        rw [(hbase name hempty).2 hnot] at hfind
        cases hfind
      rw [(hbase name hempty).1 hbinds] at hfind
      cases hfind
      refine ⟨(hdeclared name _).mpr (.inr ⟨hbinds, rfl⟩), fun m hm => ?_⟩
      rcases (hdeclared name m).mp hm with hm | ⟨-, rfl⟩
      · simp [hempty] at hm
      · exact Nat.le_refl _
  refine ⟨fun name => ⟨fun hname => ?_, fun ⟨id, hid⟩ => ?_⟩, hgreatest⟩
  · obtain ⟨id, hid⟩ := Option.isSome_iff_exists.mp hname
    exact ⟨id, (hgreatest name id hid).1⟩
  · rcases h name with ⟨id', hid', -⟩ | ⟨hempty, hfind⟩
    · exact Option.isSome_iff_exists.mpr ⟨id', hid'⟩
    · rcases (hdeclared name id).mp hid with hid | ⟨hbinds, -⟩
      · simp [hempty] at hid
      · exact Option.isSome_iff_exists.mpr ⟨c.id, hfind.trans ((hbase name hempty).1 hbinds)⟩

theorem le_of_mem_declarers (ht : Tree.ofDocument d = .ok t) {name : String} {id : NodeId}
    (h : id ∈ declarers t declares c k name) : c.id ≤ id := by
  obtain ⟨-, m, path, hm, rfl, hc, -⟩ := h
  exact Nat.le_of_lt (Tree.id_lt_of_mem_around ht hm c (List.mem_of_find?_eq_some hc))

/-- Where no declaration is left to visit, hoisting adds nothing. -/
theorem find?_entered {b : Binding} (ht : Tree.ofDocument d = .ok t)
    (hprogram : ∀ n path, (n, path) ∈ t.sites → path ≠ [] → n.kind ≠ .program)
    (hc : (c, above) ∈ t.sites) (hk : c.kind.isContext = true) (parent : Option ScopeId)
    {name : String} (hempty : declarers t (Makes b) c t.size name = ∅) :
    ((Pass.entered tracking parent c).tableOf b).find? name =
      ((Pass.freshScope parent c).tableOf b).find? name := by
  rcases FunctionScope.find?_foldl_recordIn tracking b (hoisted c) (Pass.freshScope parent c) name
    with ⟨-, decl, hmem, rfl, rfl, -⟩ | ⟨-, h⟩
  · obtain ⟨m, between, hm, hfun, hd⟩ := exists_site_of_mem_hoisted hc hmem
    have hnear : nearestContext? (between ++ c :: above) = some c := by
      refine List.find?_eq_some_iff_append.mpr ⟨hk, between, above, rfl, fun x hx => ?_⟩
      obtain ⟨inner, outer, rfl⟩ := List.append_of_mem hx
      have hm' : (m, inner ++ x :: (outer ++ c :: above)) ∈ t.sites := by simpa using hm
      have hx' := (Tree.mem_sites_of_append hm').1
      simp [Kind.isContext, hfun x hx, hprogram x _ hx' (by simp)]
    have hmakes : Makes decl.binding (between ++ c :: above).head? m decl.name := by
      unfold Makes
      rw [← node_of_mem_declarations hd]
      exact hd
    have hid : m.id ∈ declarers t (Makes decl.binding) c t.size decl.name :=
      ⟨Tree.id_lt_size ht hm, m, _, hm, rfl, hnear, hmakes⟩
    simp [hempty] at hid
  · exact h

theorem makes_var_iff {parent : Option Node} {name : String} :
    Makes .var parent n name ↔
      n.kind = .variableDeclarator ∧ declaratorBinding parent = .var ∧ name ∈ fieldNames n "id" ∨
      n.kind = .functionDeclaration ∧ nameOf? n = some name := by
  unfold Makes declarations declareAll
  split <;> simp_all [and_comm]

theorem makes_lexical_iff {parent : Option Node} {name : String} :
    Makes .lexical parent n name ↔
      n.kind = .variableDeclarator ∧ declaratorBinding parent = .lexical ∧
        name ∈ fieldNames n "id" ∨
      n.kind = .classDeclaration ∧ nameOf? n = some name ∨
      n.kind = .catchClause ∧ name ∈ fieldNames n "param" := by
  unfold Makes declarations declareAll
  split <;> simp_all [and_comm]

/-- At the end of a walk every node has been reached. -/
theorem mem_declarers_size (ht : Tree.ofDocument d = .ok t) {name : String} {id : NodeId} :
    id ∈ declarers t declares c t.size name ↔ ∃ m path, (m, path) ∈ t.sites ∧ m.id = id ∧
      nearestContext? path = some c ∧ declares path.head? m name := by
  constructor
  · exact fun h => h.2
  · rintro ⟨m, path, hm, rfl, h⟩
    exact ⟨Tree.id_lt_size ht hm, m, path, hm, rfl, h⟩

theorem varBinding_iff (ht : Tree.ofDocument d = .ok t) {name : String} {id : NodeId} :
    VarBinding t c name id ↔
      id ∈ declarers t (Makes .var) c t.size name ∨ BindsItself c name ∧ id = c.id := by
  rw [mem_declarers_size ht]
  constructor
  · rintro (h | ⟨hk, h⟩ | ⟨hm, hc, hk, hb, h⟩ | ⟨hm, hc, hk, h⟩)
    · exact .inr ⟨.inl h, rfl⟩
    · exact .inr ⟨.inr ⟨hk, h⟩, rfl⟩
    · exact .inl ⟨_, _, hm, rfl, hc, makes_var_iff.mpr (.inl ⟨hk, hb, h⟩)⟩
    · exact .inl ⟨_, _, hm, rfl, hc, makes_var_iff.mpr (.inr ⟨hk, h⟩)⟩
  · rintro (⟨m, path, hm, rfl, hc, h⟩ | ⟨h | ⟨hk, h⟩, rfl⟩)
    · rcases makes_var_iff.mp h with ⟨hk, hb, h⟩ | ⟨hk, h⟩
      · exact .declarator hm hc hk hb h
      · exact .function hm hc hk h
    · exact .parameter h
    · exact .ownName hk h

theorem functionBinding_iff (ht : Tree.ofDocument d = .ok t) {name : String} {id : NodeId} :
    FunctionBinding t c name id ↔ id ∈ declarers t MakesFunction c t.size name := by
  rw [mem_declarers_size ht]
  constructor
  · rintro ⟨hm, hc, hk, h⟩
    exact ⟨_, _, hm, rfl, hc, hk, h⟩
  · rintro ⟨m, path, hm, rfl, hc, hk, h⟩
    exact .function hm hc hk h

theorem lexicalBinding_iff (ht : Tree.ofDocument d = .ok t) {name : String} {id : NodeId} :
    LexicalBinding t c name id ↔ id ∈ declarers t (Makes .lexical) c t.size name := by
  rw [mem_declarers_size ht]
  constructor
  · rintro (⟨hm, hc, hk, hb, h⟩ | ⟨hm, hc, hk, h⟩ | ⟨hm, hc, hk, h⟩)
    · exact ⟨_, _, hm, rfl, hc, makes_lexical_iff.mpr (.inl ⟨hk, hb, h⟩)⟩
    · exact ⟨_, _, hm, rfl, hc, makes_lexical_iff.mpr (.inr (.inl ⟨hk, h⟩))⟩
    · exact ⟨_, _, hm, rfl, hc, makes_lexical_iff.mpr (.inr (.inr ⟨hk, h⟩))⟩
  · rintro ⟨m, path, hm, rfl, hc, h⟩
    rcases makes_lexical_iff.mp h with ⟨hk, hb, h⟩ | ⟨hk, h⟩ | ⟨hk, h⟩
    · exact .declarator hm hc hk hb h
    · exact .classDeclaration hm hc hk h
    · exact .catchParameter hm hc hk h

/-- Without a program below the root, the tables of a context list exactly its declarations, each
    name with the last node that declares it. -/
theorem binding_tables_exact (ht : Tree.ofDocument d = .ok t)
    (hprogram : ∀ n path, (n, path) ∈ t.sites → path ≠ [] → n.kind ≠ .program)
    (hc : (c, above) ∈ t.sites) (hk : c.kind.isContext = true) (tracking : Bool) :
    ∃ s, (annotate tracking t).functionScope? c.id = some s ∧
      Lists s.vars (VarBinding t c) ∧ Lists s.funcs (FunctionBinding t c) ∧
      (tracking = true → Lists s.lexicals (LexicalBinding t c)) ∧
      (tracking = false → s.lexicals = ∅) := by
  obtain ⟨s, hs, htab⟩ := tabled_annotate tracking ht hc hk
  refine ⟨s, hs, ?vars, ?funcs, fun htracking => ?lexicals, htab.untracked⟩
  case vars =>
    refine (htab.tables .var trivial).lists (BindsItself c)
      (fun name id => varBinding_iff ht) (fun name id => le_of_mem_declarers ht) ?_
    intro name hempty
    rw [find?_entered ht hprogram hc hk _ hempty]
    exact find?_vars_freshScope s.parent c name
  case funcs =>
    refine htab.funcs.lists (fun _ => False) (fun name id => ?_)
      (fun name id => le_of_mem_declarers ht) fun name _ => ⟨False.elim, fun _ => rfl⟩
    rw [functionBinding_iff ht, false_and, or_false]
  case lexicals =>
    refine (htab.tables .lexical htracking).lists (fun _ => False) (fun name id => ?_)
      (fun name id => le_of_mem_declarers ht) fun name hempty => ⟨False.elim, fun _ => ?_⟩
    · rw [lexicalBinding_iff ht, false_and, or_false]
    · rw [find?_entered ht hprogram hc hk _ hempty]
      rfl

/-! ## A closure -/

def syntaxDocument (tag : String) (fields : List (String × Document)) : Document :=
  .object (("type", .string tag) :: fields)

def identifierDocument (name : String) : Document :=
  syntaxDocument "Identifier" [("name", .string name)]

def blockDocument (statements : List Document) : Document :=
  syntaxDocument "BlockStatement" [("body", .array statements)]

def statementDocument (expression : Document) : Document :=
  syntaxDocument "ExpressionStatement" [("expression", expression)]

def declarationDocument (kind name : String) : Document :=
  syntaxDocument "VariableDeclaration" [("kind", .string kind),
    ("declarations", .array
      [syntaxDocument "VariableDeclarator" [("id", identifierDocument name)]])]

/-- A function declaration, or a function expression where there is no name. -/
def functionDocument (name : Option String) (parameters : List String)
    (statements : List Document) : Document :=
  let tag := if name.isSome then "FunctionDeclaration" else "FunctionExpression"
  syntaxDocument tag [("id", (name.map identifierDocument).getD .null),
    ("params", .array (parameters.map identifierDocument)), ("body", blockDocument statements)]

/-- `function outer(seen) { var seen; let kept; (function () { seen; kept; missing; }); }` -/
def closureDocument : Document :=
  syntaxDocument "Program" [("body", .array [
    functionDocument (some "outer") ["seen"] [
      declarationDocument "var" "seen", declarationDocument "let" "kept",
      statementDocument (functionDocument none [] [
        statementDocument (identifierDocument "seen"),
        statementDocument (identifierDocument "kept"),
        statementDocument (identifierDocument "missing")])]])]

/-- The tree of a document that has one. -/
def treeOf (d : Document) : Tree :=
  match Tree.ofDocument d with
  | .ok t => t
  | .error _ => default

def closureTree : Tree := treeOf closureDocument

theorem ofDocument_closure : Tree.ofDocument closureDocument = .ok closureTree := rfl

theorem binding_tables_exact_closure :
    ∃ c above, (c, above) ∈ closureTree.sites ∧ nameOf? c = some "outer" ∧
      ∃ s, (annotate true closureTree).functionScope? c.id = some s ∧
        Lists s.vars (VarBinding closureTree c) ∧ Lists s.funcs (FunctionBinding closureTree c) ∧
        Lists s.lexicals (LexicalBinding closureTree c) := by
  have hprogram : ∀ s ∈ closureTree.sites, s.2 ≠ [] → s.1.kind ≠ .program := by decide
  have houter : closureTree.sites[1] ∈ closureTree.sites := List.getElem_mem (by decide)
  obtain ⟨s, hs, hvars, hfuncs, hlexicals, -⟩ := binding_tables_exact ofDocument_closure
    (fun n path h => hprogram (n, path) h) houter (by decide) true
  exact ⟨_, _, houter, by decide, s, hs, hvars, hfuncs, hlexicals rfl⟩

example :
    ((annotate true closureTree).functionScope? 1).bind (·.vars.find? "seen") = some 4 := by
  decide +kernel

end ScriptSandbox.Scope
