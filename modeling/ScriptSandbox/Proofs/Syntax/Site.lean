import ScriptSandbox.Syntax.Tree

/-
  Sites of a tree.

  A site is a node together with the nodes around it, the nearest first; `Node.sites` lists the
  sites of a tree in the order of a walk. A site other than the root is a child of the first node
  around it (`Tree.mem_sites_cons`), so facts about sites follow by induction on the nodes around.
  `Node.induct` is the induction over a tree that all walks use, and `sitesUntil` lists the sites
  that a scan reaches which does not look below certain nodes.
-/

namespace ScriptSandbox.Syntax

namespace Node

/-! ## Children -/

theorem childAt?_mem {n c : Node} {id : NodeId} (h : n.childAt? id = some c) : c ∈ n.children :=
  List.mem_of_find?_eq_some h

theorem child?_mem {n c : Node} {key : String} (h : n.child? key = some c) : c ∈ n.children := by
  unfold child? at h
  split at h
  · exact childAt?_mem h
  · cases h

theorem listNodes_mem {n c : Node} {key : String} (h : c ∈ n.listNodes key) : c ∈ n.children := by
  obtain ⟨slot, -, h⟩ := List.mem_filterMap.mp h
  obtain ⟨id, -, h⟩ := Option.bind_eq_some_iff.mp h
  exact childAt?_mem h

/-! ## Induction over a tree -/

section

variable {motive : Node → Prop}

mutual

/-- What holds of a node once it holds of its children holds of every node. -/
theorem induct (step : ∀ n : Node, (∀ c ∈ n.children, motive c) → motive n) : ∀ n, motive n
  | ⟨_, _, _, _, children⟩ => step _ (inductAll step children)

theorem inductAll (step : ∀ n : Node, (∀ c ∈ n.children, motive c) → motive n) :
    ∀ ns : List Node, ∀ c ∈ ns, motive c
  | [] => fun _ hc => nomatch hc
  | n :: rest => List.forall_mem_cons.mpr ⟨induct step n, inductAll step rest⟩

end

end

/-! ## Sites -/

mutual

/-- The node and all below it, each with the nodes around it, the nearest first. -/
def sites (around : List Node) : Node → List (Node × List Node)
  | ⟨id, kind, role, fields, children⟩ =>
    let n : Node := ⟨id, kind, role, fields, children⟩
    (n, around) :: sitesAll (n :: around) children

def sitesAll (around : List Node) : List Node → List (Node × List Node)
  | [] => []
  | c :: rest => c.sites around ++ sitesAll around rest

end

theorem sitesAll_eq (around : List Node) (ns : List Node) :
    sitesAll around ns = ns.flatMap (·.sites around) := by
  induction ns with
  | nil => rfl
  | cons c rest ih => simp [sitesAll, ih]

theorem sites_eq (n : Node) (around : List Node) :
    n.sites around = (n, around) :: n.children.flatMap (·.sites (n :: around)) := by
  cases n
  simp only [sites, sitesAll_eq]

theorem mem_sites {s : Node × List Node} {n : Node} {around : List Node} :
    s ∈ n.sites around ↔ s = (n, around) ∨ ∃ c ∈ n.children, s ∈ c.sites (n :: around) := by
  rw [sites_eq]
  simp

theorem self_mem_sites (n : Node) (around : List Node) : (n, around) ∈ n.sites around :=
  mem_sites.mpr (.inl rfl)

/-- What is below a node of a tree belongs to the tree. -/
theorem sites_subset {n : Node} {around : List Node} {m : Node} {path : List Node}
    (hm : (m, path) ∈ n.sites around) {s : Node × List Node} (hs : s ∈ m.sites path) :
    s ∈ n.sites around := by
  induction n using induct generalizing around with
  | step n ih =>
    rcases mem_sites.mp hm with h | ⟨c, hc, h⟩
    · cases h
      exact hs
    · exact mem_sites.mpr (.inr ⟨c, hc, ih c hc h⟩)

theorem child_mem_sites {n : Node} {around : List Node} {m : Node} {path : List Node}
    (hm : (m, path) ∈ n.sites around) {c : Node} (hc : c ∈ m.children) :
    (c, m :: path) ∈ n.sites around :=
  sites_subset hm (mem_sites.mpr (.inr ⟨c, hc, self_mem_sites c _⟩))

/-- Around a site are the nodes of the subtree it lies in, down to its parent. -/
theorem eq_append_of_mem_sites {n : Node} {around : List Node} {m : Node} {path : List Node}
    (hm : (m, path) ∈ n.sites around) :
    m = n ∧ path = around ∨ ∃ between, path = between ++ n :: around := by
  induction n using induct generalizing around with
  | step n ih =>
    rcases mem_sites.mp hm with h | ⟨c, hc, h⟩
    · cases h
      exact .inl ⟨rfl, rfl⟩
    · rcases ih c hc h with ⟨rfl, rfl⟩ | ⟨between, rfl⟩
      · exact .inr ⟨[], rfl⟩
      · exact .inr ⟨between ++ [c], by simp⟩

theorem mem_sites_cons {n : Node} {around : List Node} {m p : Node} {rest : List Node}
    (hm : (m, p :: rest) ∈ n.sites around) :
    m = n ∧ p :: rest = around ∨ (p, rest) ∈ n.sites around ∧ m ∈ p.children := by
  induction n using induct generalizing around with
  | step n ih =>
    rcases mem_sites.mp hm with h | ⟨c, hc, h⟩
    · cases h
      exact .inl ⟨rfl, rfl⟩
    · rcases ih c hc h with ⟨rfl, he⟩ | ⟨hp, hc'⟩
      · cases he
        exact .inr ⟨self_mem_sites _ _, hc⟩
      · exact .inr ⟨mem_sites.mpr (.inr ⟨c, hc, hp⟩), hc'⟩

end Node

/-! ## The sites of a whole tree -/

namespace Tree

/-- Every node with the nodes around it, the nearest first, in order of their numbers. -/
def sites (t : Tree) : List (Node × List Node) := t.root.sites []

variable {t : Tree} {m p c : Node} {path rest above between : List Node}

/-- The root has nothing around it, and every other site is a child of the node next to it. -/
theorem mem_sites_cons : (m, p :: rest) ∈ t.sites ↔ (p, rest) ∈ t.sites ∧ m ∈ p.children := by
  constructor
  · intro h
    rcases Node.mem_sites_cons h with ⟨-, h⟩ | h
    · cases h
    · exact h
  · exact fun ⟨hp, hm⟩ => Node.child_mem_sites hp hm

theorem mem_sites_of_append (h : (m, between ++ c :: above) ∈ t.sites) :
    (c, above) ∈ t.sites ∧ (m, between ++ c :: above) ∈ c.sites above := by
  induction between generalizing m with
  | nil =>
    obtain ⟨hc, hm⟩ := mem_sites_cons.mp h
    exact ⟨hc, Node.child_mem_sites (Node.self_mem_sites c above) hm⟩
  | cons p between ih =>
    obtain ⟨hp, hm⟩ := mem_sites_cons.mp h
    exact ⟨(ih hp).1, Node.child_mem_sites (ih hp).2 hm⟩

/-- The nodes around a site are sites themselves. -/
theorem exists_site_of_mem (h : (m, path) ∈ t.sites) (hc : c ∈ path) :
    ∃ between above, path = between ++ c :: above ∧ (c, above) ∈ t.sites := by
  obtain ⟨between, above, rfl⟩ := List.append_of_mem hc
  exact ⟨between, above, rfl, (mem_sites_of_append h).1⟩

end Tree

/-! ## Scans -/

namespace Node

mutual

/-- The sites that a scan reaches which looks at every node but not below those where it stops. -/
def sitesUntil (stop : Node → Bool) (around : List Node) : Node → List (Node × List Node)
  | ⟨id, kind, role, fields, children⟩ =>
    let n : Node := ⟨id, kind, role, fields, children⟩
    (n, around) :: if stop n then [] else sitesUntilAll stop (n :: around) children

def sitesUntilAll (stop : Node → Bool) (around : List Node) : List Node → List (Node × List Node)
  | [] => []
  | c :: rest => c.sitesUntil stop around ++ sitesUntilAll stop around rest

end

variable {stop : Node → Bool}

theorem sitesUntilAll_eq (around : List Node) (ns : List Node) :
    sitesUntilAll stop around ns = ns.flatMap (·.sitesUntil stop around) := by
  induction ns with
  | nil => rfl
  | cons c rest ih => simp [sitesUntilAll, ih]

theorem mem_sitesUntil {s : Node × List Node} {n : Node} {around : List Node} :
    s ∈ n.sitesUntil stop around ↔ s = (n, around) ∨
      stop n = false ∧ ∃ c ∈ n.children, s ∈ c.sitesUntil stop (n :: around) := by
  cases n
  simp only [sitesUntil, sitesUntilAll_eq]
  split <;> simp_all

/-- The nodes around a site, from those around a subtree that it lies in. -/
theorem exists_between {n : Node} {around : List Node} {s : Node × List Node}
    (hs : s ∈ n.sites around) : ∃ between, s.2 = between ++ around := by
  rcases eq_append_of_mem_sites hs with ⟨-, h⟩ | ⟨between, h⟩
  · exact ⟨[], h⟩
  · exact ⟨between ++ [n], by simp [h]⟩

theorem sitesUntil_subset {n : Node} {around : List Node} {s : Node × List Node}
    (hs : s ∈ n.sitesUntil stop around) : s ∈ n.sites around := by
  induction n using induct generalizing around with
  | step n ih =>
    rcases mem_sitesUntil.mp hs with h | ⟨-, c, hc, h⟩
    · exact mem_sites.mpr (.inl h)
    · exact mem_sites.mpr (.inr ⟨c, hc, ih c hc h⟩)

/-- A scan reaches a site just when it stops at no node on the way. -/
theorem mem_sitesUntil_iff {n : Node} {around : List Node} {m : Node} {between : List Node} :
    (m, between ++ around) ∈ n.sitesUntil stop around ↔
      (m, between ++ around) ∈ n.sites around ∧ ∀ x ∈ between, stop x = false := by
  induction n using induct generalizing around between with
  | step n ih =>
    -- a site below the node has the node last among those in between
    have below : ∀ c ∈ n.children, (m, between ++ around) ∈ c.sites (n :: around) →
        ∃ inner, between = inner ++ [n] := by
      intro c _ h
      obtain ⟨inner, h'⟩ := exists_between h
      have h' : between ++ around = (inner ++ [n]) ++ around := by simpa using h'
      exact ⟨inner, List.append_cancel_right h'⟩
    constructor
    · intro h
      rcases mem_sitesUntil.mp h with h | ⟨hn, c, hc, h⟩
      · obtain ⟨rfl, h⟩ := Prod.mk.inj h
        obtain rfl : between = [] := by simpa using h
        exact ⟨self_mem_sites m around, by simp⟩
      · obtain ⟨inner, rfl⟩ := below c hc (sitesUntil_subset h)
        rw [List.append_assoc, List.singleton_append] at h ⊢
        obtain ⟨h, hs⟩ := (ih c hc).mp h
        refine ⟨mem_sites.mpr (.inr ⟨c, hc, h⟩), fun x hx => ?_⟩
        rcases List.mem_append.mp hx with hx | hx
        · exact hs x hx
        · exact List.mem_singleton.mp hx ▸ hn
    · rintro ⟨h, hs⟩
      rcases mem_sites.mp h with h | ⟨c, hc, h⟩
      · exact mem_sitesUntil.mpr (.inl h)
      · obtain ⟨inner, rfl⟩ := below c hc h
        rw [List.append_assoc, List.singleton_append] at h ⊢
        refine mem_sitesUntil.mpr (.inr ⟨hs n (by simp), c, hc, (ih c hc).mpr ⟨h, ?_⟩⟩)
        exact fun x hx => hs x (List.mem_append_left _ hx)

end Node

end ScriptSandbox.Syntax
