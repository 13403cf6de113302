import ScriptSandbox.Proofs.Scope.Binding

/-
  What a block binds.

  A block binds the block-scoped names declared below it with no function and no other block in
  between, and a catch clause binds its parameter. `blockNames` computes just these
  (`mem_blockNames_iff`), and the sets of names in a frame hold them (`Mirrors.blockBinds_iff`).
  `Enclosure.Owns` and `BlockOwned` say where the search for the owner of a name stops on its way
  outward.
-/

namespace ScriptSandbox

/-- A set that a fold over names fills holds a name when it did at the start, or when the name is
    among those folded over and its own step adds it. -/
theorem foldl_iff {S : Type} {P : S → Prop} {Q : Prop} {f : S → String → S} {name : String}
    (hf : ∀ s other, P (f s other) ↔ P s ∨ name = other ∧ Q) (names : List String) (s : S) :
    P (names.foldl f s) ↔ P s ∨ name ∈ names ∧ Q := by
  induction names generalizing s with
  | nil => simp
  | cons other names ih => rw [List.foldl_cons, ih, hf, List.mem_cons, or_and_right, or_assoc]

theorem NameSet.mem_ofList {names : List String} {name : String} :
    name ∈ NameSet.ofList names ↔ name ∈ names := by
  have hinsert (s : NameSet) (other : String) :
      name ∈ s.insert other ↔ name ∈ s ∨ name = other ∧ True := by simp [or_comm]
  refine (foldl_iff (P := fun s : NameSet => name ∈ s) hinsert names .empty).trans ?_
  rw [and_true]
  exact or_iff_right List.not_mem_nil

namespace Scope

open Syntax

/-! ## One block -/

/-- Whether a node ends the reach of the block around it. -/
def endsBlock (n : Node) : Bool := n.kind.isFunction || n.kind.opensBlock

/-- A block binds a name: as the parameter of a catch clause, or by a block-scoped declaration with
    no function and no other block in between. -/
inductive BlockBinds (b : Node) (name : String) : Prop
  | parameter (hk : b.kind = .catchClause) (h : name ∈ fieldNames b "param")
  | declarator {m : Node} {between : List Node} (hm : (m, between ++ [b]) ∈ b.sites [])
    (hb : ∀ x ∈ between, endsBlock x = false) (hk : m.kind = .variableDeclarator)
    (hl : declaratorBinding (between ++ [b]).head? = .lexical) (h : name ∈ fieldNames m "id")
  | classDeclaration {m : Node} {between : List Node} (hm : (m, between ++ [b]) ∈ b.sites [])
    (hb : ∀ x ∈ between, endsBlock x = false) (hk : m.kind = .classDeclaration)
    (h : nameOf? m = some name)

variable {b n parent : Node} {name : String}

theorem lexicalNamesBelow_eq (n : Node) (ns : List Node) :
    lexicalNamesBelow n ns = ns.flatMap (lexicalNamesIn n) := by
  induction ns with
  | nil => rfl
  | cons c rest ih => simp [lexicalNamesBelow, ih]

theorem lexicalNamesIn_eq (parent n : Node) :
    lexicalNamesIn parent n =
      if n.kind.isFunction || n.kind.opensBlock then []
      else ((declarations (some parent) n).filter (·.binding = .lexical)).map (·.name) ++
        n.children.flatMap (lexicalNamesIn n) := by
  cases n
  rw [lexicalNamesIn, lexicalNamesBelow_eq]

theorem mem_names_iff_makes {parent : Option Node} :
    name ∈ ((declarations parent n).filter (·.binding = .lexical)).map (·.name) ↔
      Makes .lexical parent n name := by
  simp only [List.mem_map, List.mem_filter, decide_eq_true_eq]
  constructor
  · rintro ⟨⟨other, node, binding⟩, ⟨hmem, hb⟩, rfl⟩
    cases node_of_mem_declarations hmem
    cases hb
    exact hmem
  · exact fun h => ⟨_, ⟨h, rfl⟩, rfl⟩

theorem mem_lexicalNamesIn_step :
    name ∈ lexicalNamesIn parent n ↔ endsBlock n = false ∧
      (Makes .lexical (some parent) n name ∨ ∃ c ∈ n.children, name ∈ lexicalNamesIn n c) := by
  obtain ⟨id, kind, role, fields, children⟩ := n
  rw [← mem_names_iff_makes]
  simp only [lexicalNamesIn, lexicalNamesBelow_eq, endsBlock]
  cases hend : kind.isFunction || kind.opensBlock <;> simp

/-- The scan for the names of a block reads what its nodes declare and stops at functions and at
    other blocks. -/
theorem mem_lexicalNamesIn (rest : List Node) :
    name ∈ lexicalNamesIn parent n ↔
      ∃ m path, (m, path) ∈ n.sitesUntil endsBlock (parent :: rest) ∧ endsBlock m = false ∧
        Makes .lexical path.head? m name := by
  induction n using Node.induct generalizing parent rest with
  | step n ih =>
    rw [mem_lexicalNamesIn_step]
    constructor
    · rintro ⟨hn, hm | ⟨c, hc, h⟩⟩
      · exact ⟨n, _, Node.mem_sitesUntil.mpr (.inl rfl), hn, hm⟩
      · obtain ⟨m, path, hm, hmakes⟩ := (ih c hc (parent :: rest)).mp h
        exact ⟨m, path, Node.mem_sitesUntil.mpr (.inr ⟨hn, c, hc, hm⟩), hmakes⟩
    · rintro ⟨m, path, hm, hend, hmakes⟩
      rcases Node.mem_sitesUntil.mp hm with h | ⟨hn, c, hc, hm⟩
      · cases h
        exact ⟨hend, .inl hmakes⟩
      · exact ⟨hn, .inr ⟨c, hc, (ih c hc (parent :: rest)).mpr ⟨m, path, hm, hend, hmakes⟩⟩⟩

/-- What a block-scoped declaration of a node is, where the node ends no block. -/
theorem makes_lexical_inner {parent : Option Node} (hn : endsBlock n = false) :
    Makes .lexical parent n name ↔
      n.kind = .variableDeclarator ∧ declaratorBinding parent = .lexical ∧
        name ∈ fieldNames n "id" ∨
      n.kind = .classDeclaration ∧ nameOf? n = some name := by
  have hcatch : n.kind ≠ .catchClause := fun hk => by
    simp [endsBlock, hk, Kind.opensBlock] at hn
  simp [makes_lexical_iff, hcatch]

/-- `blockNames` lists what a block binds. -/
theorem mem_blockNames_iff : name ∈ blockNames b ↔ BlockBinds b name := by
  have hbelow : name ∈ lexicalNamesBelow b b.children ↔ ∃ m between,
      (m, between ++ [b]) ∈ b.sites [] ∧ (∀ x ∈ between, endsBlock x = false) ∧
        endsBlock m = false ∧ Makes .lexical (between ++ [b]).head? m name := by
    rw [lexicalNamesBelow_eq, List.mem_flatMap]
    constructor
    · rintro ⟨c, hc, h⟩
      obtain ⟨m, path, hm, hend, hmakes⟩ := (mem_lexicalNamesIn []).mp h
      obtain ⟨between, rfl⟩ : ∃ between, path = between ++ [b] :=
        Node.exists_between (Node.sitesUntil_subset hm)
      obtain ⟨hm, hb⟩ := Node.mem_sitesUntil_iff.mp hm
      exact ⟨m, between, Node.mem_sites.mpr (.inr ⟨c, hc, hm⟩), hb, hend, hmakes⟩
    · rintro ⟨m, between, hm, hb, hend, hmakes⟩
      rcases Node.mem_sites.mp hm with h | ⟨c, hc, hm⟩
      · simp at h
      · refine ⟨c, hc, (mem_lexicalNamesIn []).mpr ⟨m, _, ?_, hend, hmakes⟩⟩
        exact Node.mem_sitesUntil_iff.mpr ⟨hm, hb⟩
  have hparam : name ∈ (if b.kind = .catchClause then fieldNames b "param" else []) ↔
      b.kind = .catchClause ∧ name ∈ fieldNames b "param" := by
    split <;> simp_all
  unfold blockNames
  rw [List.mem_append, hparam, hbelow]
  constructor
  · rintro (⟨hk, h⟩ | ⟨m, between, hm, hb, hend, hmakes⟩)
    · exact .parameter hk h
    · rcases (makes_lexical_inner hend).mp hmakes with ⟨hk, hl, h⟩ | ⟨hk, h⟩
      · exact .declarator hm hb hk hl h
      · exact .classDeclaration hm hb hk h
  · have inner {m : Node} (hk : m.kind = .variableDeclarator ∨ m.kind = .classDeclaration) :
        endsBlock m = false := by
      rcases hk with hk | hk <;> simp [endsBlock, hk, Kind.isFunction, Kind.opensBlock]
    rintro (⟨hk, h⟩ | ⟨hm, hb, hk, hl, h⟩ | ⟨hm, hb, hk, h⟩)
    · exact .inl ⟨hk, h⟩
    · exact .inr ⟨_, _, hm, hb, inner (.inl hk),
        (makes_lexical_inner (inner (.inl hk))).mpr (.inl ⟨hk, hl, h⟩)⟩
    · exact .inr ⟨_, _, hm, hb, inner (.inr hk),
        (makes_lexical_inner (inner (.inr hk))).mpr (.inr ⟨hk, h⟩)⟩

/-! ## The contexts around a site -/

theorem FunctionScope.binds_iff (s : FunctionScope) (name : String) : s.binds name = true ↔
    s.vars.contains name = true ∨ s.bindsArguments = true ∧ name = "arguments" := by
  unfold binds declaration? Table.contains
  cases s.vars.find? name <;> simp

/-- The context of a node binds a name throughout. -/
def ScopeTable.BindsAt (table : ScopeTable) (id : NodeId) (name : String) : Prop :=
  table.Has id fun s => s.binds name = true

/-- A block of a context that is open at a site binds a name. Blocks bind nothing without
    tracking. -/
def Enclosure.BlockBinds (tracking : Bool) (e : Enclosure) (name : String) : Prop :=
  tracking = true ∧ ∃ b ∈ e.blocks, Scope.BlockBinds b name

/-- A context answers for a name at a site: one of its open blocks binds it, or the context does. -/
def Enclosure.Owns (tracking : Bool) (table : ScopeTable) (e : Enclosure) (name : String) : Prop :=
  e.BlockBinds tracking name ∨ table.BindsAt e.context.id name

/-- The first context on the way outward that answers for a name does so by a block. -/
def BlockOwned (tracking : Bool) (table : ScopeTable) (name : String) : List Enclosure → Prop
  | [] => False
  | e :: es => e.BlockBinds tracking name ∨
      ¬ table.BindsAt e.context.id name ∧ BlockOwned tracking table name es

namespace Mirrors

variable {table : ScopeTable} {tracking : Bool} {f : Frame} {e : Enclosure}

theorem blockBinds_iff (h : Mirrors table tracking f e) :
    f.blockBinds name = true ↔ e.BlockBinds tracking name := by
  unfold Frame.blockBinds Enclosure.BlockBinds
  rw [h.blocks]
  cases tracking <;> simp [NameSet.contains_iff, NameSet.mem_ofList, mem_blockNames_iff]

theorem binds_iff (name : String) (h : Mirrors table tracking f e) :
    (table.scopes[f.scope]?.map (·.binds name)).getD false = true ↔
      table.BindsAt e.context.id name := by
  unfold ScopeTable.BindsAt ScopeTable.Has ScopeTable.functionScope?
  rw [h.scope]
  cases hs : table.scopes[f.scope]? <;> simp [hs]

end Mirrors

end Scope

end ScriptSandbox
