import ScriptSandbox.Proofs.Scope.Enclosure
import ScriptSandbox.Proofs.Syntax.Numbering

/-
  Which declarations are hoisted.

  The scan of a context reads what its nodes declare at their sites, never below a function. So
  each hoisted declaration is made by a node below the context with no function in between
  (`exists_site_of_mem_hoisted`). The other way round, where bodies have their usual shape and
  function declarations stand as direct statements, every declaration of the context is hoisted
  (`mem_hoisted`).
-/

namespace ScriptSandbox.Scope

open Syntax

theorem hoistedBelow_eq (n : Node) (ns : List Node) :
    hoistedBelow n ns = ns.flatMap (hoistedIn false n) := by
  induction ns with
  | nil => rfl
  | cons c rest ih => simp [hoistedBelow, ih]

/-- The scan of a subtree, one node at a time. -/
theorem mem_hoistedIn_step {direct : Bool} {parent n : Node} {d : Declaration} :
    d ∈ hoistedIn direct parent n ↔
      d ∈ declarations (some parent) n ∧ (n.kind = .functionDeclaration → direct = true) ∨
        n.kind.isFunction = false ∧ ∃ c ∈ n.children, d ∈ hoistedIn false n c := by
  obtain ⟨id, kind, role, fields, children⟩ := n
  cases kind <;>
    simp [hoistedIn, hoistedBelow_eq, Kind.isFunction, declarations, and_comm]

/-- The scan of a subtree finds what the nodes declare that it reaches without looking below a
    function; a function declaration counts where the scan starts only. -/
theorem mem_hoistedIn {direct : Bool} {parent n : Node} (rest : List Node) {d : Declaration} :
    d ∈ hoistedIn direct parent n ↔
      ∃ m path, (m, path) ∈ n.sitesUntil (·.kind.isFunction) (parent :: rest) ∧
        d ∈ declarations path.head? m ∧
        (m.kind = .functionDeclaration → direct = true ∧ path = parent :: rest) := by
  induction n using Node.induct generalizing direct parent rest with
  | step n ih =>
    rw [mem_hoistedIn_step]
    constructor
    · rintro (⟨hd, hdirect⟩ | ⟨hn, c, hc, hd⟩)
      · exact ⟨n, _, Node.mem_sitesUntil.mpr (.inl rfl), hd, fun hk => ⟨hdirect hk, rfl⟩⟩
      · obtain ⟨m, path, hm, hd, hk⟩ := (ih c hc (parent :: rest)).mp hd
        exact ⟨m, path, Node.mem_sitesUntil.mpr (.inr ⟨hn, c, hc, hm⟩), hd,
          fun h => absurd (hk h).1 Bool.false_ne_true⟩
    · rintro ⟨m, path, hm, hd, hk⟩
      rcases Node.mem_sitesUntil.mp hm with h | ⟨hn, c, hc, hm⟩
      · cases h
        exact .inl ⟨hd, fun h => (hk h).1⟩
      · refine .inr ⟨hn, c, hc, (ih c hc (parent :: rest)).mpr ⟨m, path, hm, hd, fun h => ?_⟩⟩
        -- below the start no path is that of the start
        obtain ⟨between, hpath⟩ := Node.exists_between (Node.sitesUntil_subset hm)
        have hlength := congrArg List.length (hpath.symm.trans (hk h).2)
        simp at hlength
        omega

/-- The statements that the scan of a context starts from, each with its parent. -/
theorem mem_hoisted_iff {n : Node} {d : Declaration} :
    d ∈ hoisted n ↔
      (∃ block, bodyBlock? n = some block ∧
        ∃ c ∈ block.listNodes "body", d ∈ hoistedIn true block c) ∨
      bodyBlock? n = none ∧ ∃ c, n.child? "body" = some c ∧ d ∈ hoistedIn true n c := by
  unfold hoisted
  cases hb : bodyBlock? n with
  | some block => simp
  | none =>
    have hn : n.kind ≠ .program := fun hk => by simp [bodyBlock?, hk] at hb
    simp [hn]

variable {d : Document} {t : Tree} {c m p x : Node} {above path between rest : List Node}
  {decl : Declaration}

theorem exists_site_of_mem_hoistedIn {direct : Bool} (hp : (p, rest) ∈ t.sites)
    (hx : x ∈ p.children) (hd : decl ∈ hoistedIn direct p x) :
    ∃ m between, (m, between ++ p :: rest) ∈ t.sites ∧
      (∀ y ∈ between, y.kind.isFunction = false) ∧
      decl ∈ declarations (between ++ p :: rest).head? m := by
  obtain ⟨m, path, hm, hd, -⟩ := (mem_hoistedIn rest).mp hd
  obtain ⟨between, rfl⟩ : ∃ between, path = between ++ p :: rest :=
    Node.exists_between (Node.sitesUntil_subset hm)
  obtain ⟨hm, hstop⟩ := Node.mem_sitesUntil_iff.mp hm
  exact ⟨m, between, Node.sites_subset (Tree.mem_sites_cons.mpr ⟨hp, hx⟩) hm, hstop, hd⟩

theorem bodyBlock?_eq_some (h : bodyBlock? c = some x) :
    x = c ∧ c.kind = .program ∨
      c.kind ≠ .program ∧ c.child? "body" = some x ∧ x.kind = .blockStatement := by
  unfold bodyBlock? at h
  split at h
  · next hk =>
    cases h
    exact .inl ⟨rfl, hk⟩
  · next hk =>
    obtain ⟨hx, hkind⟩ := Option.filter_eq_some_iff.mp h
    exact .inr ⟨hk, hx, by simpa using hkind⟩

/-- A hoisted declaration is made by a node below the context, with no function in between. -/
theorem exists_site_of_mem_hoisted (hc : (c, above) ∈ t.sites) (hd : decl ∈ hoisted c) :
    ∃ m between, (m, between ++ c :: above) ∈ t.sites ∧
      (∀ x ∈ between, x.kind.isFunction = false) ∧
      decl ∈ declarations (between ++ c :: above).head? m := by
  rcases mem_hoisted_iff.mp hd with ⟨block, hb, x, hx, hdx⟩ | ⟨-, x, hx, hdx⟩
  · have hx := Node.listNodes_mem hx
    rcases bodyBlock?_eq_some hb with ⟨rfl, -⟩ | ⟨-, hchild, hkind⟩
    · exact exists_site_of_mem_hoistedIn hc hx hdx
    · have hblock := Tree.mem_sites_cons.mpr ⟨hc, Node.child?_mem hchild⟩
      obtain ⟨m, between, hm, hstop, hd⟩ := exists_site_of_mem_hoistedIn hblock hx hdx
      refine ⟨m, between ++ [block], by simpa using hm, fun y hy => ?_, by simpa using hd⟩
      rcases List.mem_append.mp hy with hy | hy
      · exact hstop y hy
      · simp [List.mem_singleton.mp hy, hkind, Kind.isFunction]
  · exact exists_site_of_mem_hoistedIn hc (Node.child?_mem hx) hdx

/-! ## Bodies of the usual shape -/

/-- Bodies have their usual shape: that of a program or block is no single node, and that of a
    function is no list of nodes. -/
def UsualBodies (t : Tree) : Prop :=
  ∀ n path, (n, path) ∈ t.sites →
    (n.kind = .program ∨ n.kind = .blockStatement → n.child? "body" = none) ∧
    (n.kind.isFunction = true → n.list? "body" = none)

/-- Every function declaration is a direct statement of a program or of the block that is the body
    of a function. -/
def DirectFunctions (t : Tree) : Prop :=
  ∀ n path, (n, path) ∈ t.sites → n.kind = .functionDeclaration →
    ∃ p rest, path = p :: rest ∧
      (p.kind = .program ∨ p.kind = .blockStatement ∧ ∃ f ∈ rest.head?, f.kind.isFunction = true)

/-- A site below a node is at or below one of its children. -/
theorem exists_child_of_site (h : (m, between ++ p :: rest) ∈ t.sites) :
    ∃ x ∈ p.children, (m, between ++ p :: rest) ∈ x.sites (p :: rest) := by
  obtain ⟨hp, hm⟩ := Tree.mem_sites_of_append h
  rcases Node.mem_sites.mp hm with h | h
  · have hlength := congrArg (fun s => s.2.length) h
    simp at hlength
    omega
  · exact h

theorem mem_hoistedIn_of_site (h : (m, between ++ p :: rest) ∈ x.sites (p :: rest))
    (hb : ∀ y ∈ between, y.kind.isFunction = false)
    (hd : decl ∈ declarations (between ++ p :: rest).head? m)
    (hk : m.kind = .functionDeclaration → between = []) : decl ∈ hoistedIn true p x :=
  (mem_hoistedIn rest).mpr ⟨m, _, Node.mem_sitesUntil_iff.mpr ⟨h, hb⟩, hd,
    fun h => ⟨rfl, by rw [hk h, List.nil_append]⟩⟩

/-- A function declaration of a context is a direct statement of it. -/
theorem between_of_direct (hdirect : DirectFunctions t)
    (hm : (m, between ++ c :: above) ∈ t.sites) (hk : m.kind = .functionDeclaration)
    (hc : c.kind.isContext = true) (hb : ∀ y ∈ between, y.kind.isContext = false) :
    between = [] ∧ c.kind = .program ∨
      ∃ b, between = [b] ∧ b.kind = .blockStatement ∧ c.kind.isFunction = true := by
  obtain ⟨p, rest, hpath, hp⟩ := hdirect m _ hm hk
  match between with
  | [] =>
    cases hpath
    rcases hp with hp | ⟨hp, -⟩
    · exact .inl ⟨rfl, hp⟩
    · simp [hp, Kind.isContext, Kind.isFunction] at hc
  | [b] =>
    cases hpath
    rcases hp with hp | ⟨hp, f, hf, hfun⟩
    · simpa [hp, Kind.isContext] using hb p (by simp)
    · cases hf
      exact .inr ⟨p, rfl, hp, hfun⟩
  | b :: b' :: more =>
    cases hpath
    rcases hp with hp | ⟨hp, f, hf, hfun⟩
    · simpa [hp, Kind.isContext] using hb p (by simp)
    · cases hf
      simpa [hfun, Kind.isContext] using hb b' (by simp)

/-- Where bodies and function declarations are as usual, a context hoists all that is declared
    below it with no context in between. -/
theorem mem_hoisted (ht : Tree.ofDocument d = .ok t) (hbodies : UsualBodies t)
    (hdirect : DirectFunctions t) (hc : c.kind.isContext = true)
    (hm : (m, between ++ c :: above) ∈ t.sites)
    (hb : ∀ y ∈ between, y.kind.isContext = false)
    (hd : decl ∈ declarations (between ++ c :: above).head? m) : decl ∈ hoisted c := by
  have hsite := (Tree.mem_sites_of_append hm).1
  have hfun : ∀ y ∈ between, y.kind.isFunction = false := fun y hy => by
    have hy := hb y hy
    simp only [Kind.isContext, Bool.or_eq_false_iff] at hy
    exact hy.2
  have hplace := fun hk => between_of_direct hdirect hm hk hc hb
  obtain ⟨x, hx, hmx⟩ := exists_child_of_site hm
  rw [mem_hoisted_iff]
  by_cases hprogram : c.kind = .program
  · rw [Tree.children_eq_body ht hsite (by rw [hprogram]; rfl),
      (hbodies c above hsite).1 (.inl hprogram)] at hx
    refine .inl ⟨c, by simp [bodyBlock?, hprogram], x, hx, mem_hoistedIn_of_site hmx hfun hd ?_⟩
    intro hk
    rcases hplace hk with ⟨h, -⟩ | ⟨b, -, -, h⟩
    · exact h
    · simp [hprogram, Kind.isFunction] at h
  · have hfunction : c.kind.isFunction = true := by
      simpa [Kind.isContext, hprogram] using hc
    have hplan : fixedPlan? c.kind = some [("body", .reference)] := by
      cases hkind : c.kind <;> simp_all [Kind.isFunction, fixedPlan?]
    have hchildren : c.children = (c.child? "body").toList := by
      have hlist : c.listNodes "body" = [] := by
        simp [Node.listNodes, (hbodies c above hsite).2 hfunction]
      rw [Tree.children_eq_body ht hsite hplan, hlist, List.append_nil]
    have hbody : c.child? "body" = some x := Option.mem_toList.mp (hchildren ▸ hx)
    by_cases hblock : x.kind = .blockStatement
    · -- the context is a function with a block: its declarations are below the block
      have hxsite := Tree.mem_sites_cons.mpr ⟨hsite, hx⟩
      obtain ⟨inner, rfl⟩ : ∃ inner, between = inner ++ [x] := by
        rcases Node.eq_append_of_mem_sites hmx with ⟨rfl, -⟩ | ⟨inner, h⟩
        · simp [declarations, hblock] at hd
        · have h' : between ++ c :: above = (inner ++ [x]) ++ c :: above := by simpa using h
          exact ⟨inner, List.append_cancel_right h'⟩
      rw [List.append_assoc, List.singleton_append] at hm hd
      obtain ⟨y, hy, hmy⟩ := exists_child_of_site hm
      rw [Tree.children_eq_body ht hxsite (by rw [hblock]; rfl),
        (hbodies x _ hxsite).1 (.inr hblock)] at hy
      refine .inl ⟨x, by simp [bodyBlock?, hprogram, hbody, hblock], y, hy,
        mem_hoistedIn_of_site hmy (fun z hz => hfun z (List.mem_append_left _ hz)) hd ?_⟩
      intro hk
      rcases hplace hk with ⟨-, h⟩ | ⟨b, h, -⟩
      · exact absurd h hprogram
      · cases inner <;> simp_all
    · refine .inr ⟨by simp [bodyBlock?, hprogram, hbody, hblock], x, hbody,
        mem_hoistedIn_of_site hmx hfun hd ?_⟩
      intro hk
      rcases hplace hk with ⟨h, -⟩ | ⟨b, rfl, hb, -⟩
      · exact h
      · -- the only node directly below the context is its body, which is no block
        have hbmem := (Tree.mem_sites_cons.mp (Tree.mem_sites_cons.mp hm).1).2
        rw [hchildren, hbody] at hbmem
        exact absurd (List.mem_singleton.mp hbmem ▸ hb) hblock

end ScriptSandbox.Scope
