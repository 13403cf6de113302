import Mathlib.Algebra.GroupWithZero.Nat
import Mathlib.Algebra.Order.BigOperators.Group.List
import Mathlib.Algebra.Order.Group.Nat
import ScriptSandbox.Proofs.Scope.Block
import ScriptSandbox.Proofs.Scope.Checking

/-
  Reading an arena.

  On the arena of a document every lookup of a node succeeds: a number that is taken from an entry
  is that of a child (`Node.Linked`), so it belongs to a site. A scan runs over each site below a
  node once, so it ends within as many rounds as the arena has entries (`scan_eq`). What is read
  from the arena is what is read from the tree (`declarations_eq`, `hoisted_eq`, `blockNames_eq`,
  `isStrict_eq`).
-/

namespace ScriptSandbox.Scope

open Syntax

namespace Checked

theorem ok_bind {α β : Type} (x : α) (f : α → Except Stray β) : (Except.ok x >>= f) = f x := rfl

variable {d : Document} {t : Tree} {tracking : Bool} {path : List Node} {n : Node}

/-! ## Entries -/

section

variable (ht : Tree.ofDocument d = .ok t) (hn : (n, path) ∈ t.sites)

include ht hn

theorem entry_eq : entry t.arena n.id = .ok (n.entry (path.head?.map (·.id))) := by
  rw [entry, Tree.arena_getElem? ht hn]

theorem declarations_eq :
    declarations t.arena n.id = .ok (Scope.declarations path.head? n) := by
  have hother (hk : n.kind ≠ .variableDeclarator) (parent : Option Node) :
      Scope.declarations none n = Scope.declarations parent n := by
    unfold Scope.declarations
    split <;> first | contradiction | rfl
  unfold declarations
  rw [entry_eq ht hn, ok_bind, Node.kind_entry]
  split
  · next p hk hp =>
    cases path with
    | nil => cases hp
    | cons q rest =>
      cases hp
      rw [entry_eq ht (Tree.mem_sites_cons.mp hn).1]
      rfl
  · next hnone =>
    by_cases hk : n.kind = .variableDeclarator
    · cases path with
      | nil => rfl
      | cons q rest => exact absurd rfl (hnone q.id hk)
    · exact congrArg Except.ok (hother hk path.head?)

/-- The entry of the node that holds the statements of a context. -/
theorem bodyBlock?_eq : ∃ parent, bodyBlock? t.arena (n.entry (path.head?.map (·.id))) =
    .ok ((Scope.bodyBlock? n).map (·.entry parent)) := by
  unfold bodyBlock? Scope.bodyBlock?
  rw [Node.kind_entry, (Tree.linked ht hn).child?_entry]
  split
  · exact ⟨_, rfl⟩
  · cases hchild : n.child? "body" with
    | none => exact ⟨none, rfl⟩
    | some body =>
      have hbody := Tree.mem_sites_cons.mpr ⟨hn, Node.child?_mem hchild⟩
      refine ⟨some n.id, ?_⟩
      simp only [Option.map_some]
      rw [entry_eq ht hbody, ok_bind, Node.kind_entry]
      by_cases hk : body.kind = .blockStatement
      · rw [if_pos hk, Option.filter_some, if_pos (decide_eq_true hk)]
        rfl
      · rw [if_neg hk, Option.filter_some, if_neg (by simpa using hk)]
        rfl

omit ht in
theorem exists_site_of_bodyBlock? {block : Node} (h : Scope.bodyBlock? n = some block) :
    ∃ rest, (block, rest) ∈ t.sites := by
  rcases bodyBlock?_eq_some h with ⟨rfl, -⟩ | ⟨-, hchild, -⟩
  · exact ⟨path, hn⟩
  · exact ⟨n :: path, Tree.mem_sites_cons.mpr ⟨hn, Node.child?_mem hchild⟩⟩

theorem isStrict_eq : isStrict t.arena n.id = .ok (Scope.isStrict n) := by
  obtain ⟨parent, hbody⟩ := bodyBlock?_eq ht hn
  unfold isStrict Scope.isStrict
  rw [entry_eq ht hn, ok_bind, hbody, ok_bind]
  cases hblock : Scope.bodyBlock? n with
  | none => rfl
  | some block =>
    obtain ⟨rest, hblock⟩ := exists_site_of_bodyBlock? hn hblock
    simp only [Option.map_some, Node.list?_entry]
    cases hfirst : (block.list? "body").bind List.head? with
    | none => rfl
    | some slot =>
      cases slot with
      | none => rfl
      | some first =>
        obtain ⟨slots, hslots, hhead⟩ := Option.bind_eq_some_iff.mp hfirst
        have hmem : first ∈ idsIn block.fields "body" :=
          Node.mem_idsIn_of_list? hslots (List.mem_of_head? hhead)
        obtain ⟨statement, hstatement, hat, rfl⟩ := (Tree.linked ht hblock).exists_childAt? hmem
        have hstatement := Tree.mem_sites_cons.mpr ⟨hblock, hstatement⟩
        simp only [hat]
        rw [entry_eq ht hstatement, ok_bind, Node.kind_entry,
          (Tree.linked ht hstatement).child?_entry]
        by_cases hk : statement.kind = .expressionStatement
        · rw [if_pos hk]
          cases hchild : statement.child? "expression" with
          | none => simp [hk]; rfl
          | some e =>
            have he := Tree.mem_sites_cons.mpr ⟨hstatement, Node.child?_mem hchild⟩
            simp only [Option.map_some]
            rw [entry_eq ht he, ok_bind]
            simp [hk]
            rfl
        · rw [if_neg hk]
          simp [hk]
          rfl

end

/-! ## Scans -/

/-- A node that a scan has pending, below its parent, and whether it is a direct statement. -/
structure Pending where
  node : Node
  parent : Node
  rest : List Node
  direct : Bool

namespace Pending

/-- The number of nodes at or below a pending one. -/
def weight (s : Pending) : Nat := (s.node.sites (s.parent :: s.rest)).length

/-- The children of a pending node. -/
def below (s : Pending) : List Pending :=
  s.node.children.map fun c => ⟨c, s.node, s.parent :: s.rest, false⟩

theorem weight_eq (s : Pending) : s.weight = (s.below.map weight).sum + 1 := by
  rw [weight, Node.sites_eq, List.length_cons, List.length_flatMap, below, List.map_map]
  rfl

end Pending

/-- A scan collects what the definition by recursion over the tree collects, if it may take a round
    for every node at or below a pending one. -/
theorem scan_eq (ht : Tree.ofDocument d = .ok t) {β : Type} {enters : Kind → Bool}
    {own : NodeId → Bool → Except Stray (List β)} (collect mine : Bool → Node → Node → List β)
    (hown : ∀ m p rest direct, (m, p :: rest) ∈ t.sites → own m.id direct = .ok (mine direct p m))
    (hcollect : ∀ direct p m, collect direct p m =
      mine direct p m ++ if enters m.kind then m.children.flatMap (collect false m) else [])
    (rounds : Nat) (pending : List Pending)
    (hsites : ∀ s ∈ pending, (s.node, s.parent :: s.rest) ∈ t.sites)
    (hrounds : (pending.map Pending.weight).sum ≤ rounds) :
    scan t.arena enters own rounds (pending.map fun s => (s.node.id, s.direct)) =
      .ok (pending.flatMap fun s => collect s.direct s.parent s.node) := by
  induction rounds generalizing pending with
  | zero =>
    cases pending with
    | nil => rfl
    | cons s pending =>
      rw [List.map_cons, List.sum_cons, s.weight_eq] at hrounds
      omega
  | succ rounds ih =>
    cases pending with
    | nil => rfl
    | cons s pending =>
      obtain ⟨hs, hsites⟩ := List.forall_mem_cons.mp hsites
      rw [List.map_cons, List.sum_cons, s.weight_eq] at hrounds
      have hrest : scan t.arena enters own rounds
          ((if enters s.node.kind then (s.node.children.map (·.id)).map fun c => (c, false)
            else []) ++ pending.map fun s => (s.node.id, s.direct)) =
          .ok ((if enters s.node.kind then s.node.children.flatMap (collect false s.node)
            else []) ++ pending.flatMap fun s => collect s.direct s.parent s.node) := by
        cases enters s.node.kind with
        | false => exact ih pending hsites (by omega)
        | true =>
          have hbelow := ih (s.below ++ pending) ?_ ?_
          · simpa [Pending.below, List.flatMap_map, Function.comp_def] using hbelow
          · refine List.forall_mem_append.mpr ⟨fun c hc => ?_, hsites⟩
            obtain ⟨m, hm, rfl⟩ := List.mem_map.mp hc
            exact Tree.mem_sites_cons.mpr ⟨hs, hm⟩
          · rw [List.map_append, List.sum_append]
            omega
      simp only [List.map_cons, scan]
      rw [entry_eq ht hs, ok_bind, hown _ _ _ _ hs, ok_bind, Node.kind_entry, Node.children_entry,
        hrest, ok_bind, List.flatMap_cons, hcollect, List.append_assoc]
      rfl

/-- Below a site there are at most as many nodes as in the tree. -/
theorem length_sites_le (ht : Tree.ofDocument d = .ok t) (hn : (n, path) ∈ t.sites) :
    (n.sites path).length ≤ t.arena.length := by
  obtain ⟨i, j, hs⟩ := Node.exists_spans_of_mem_sites (Tree.sound_ofDocument ht).1 hn
  have hlength := congrArg List.length (Node.map_id_sites hs path).2
  have hle := Tree.le_size ht hn hs
  rw [List.length_map, List.length_range'] at hlength
  rw [Tree.length_arena ht, hlength]
  omega

theorem sum_weights_le (ht : Tree.ofDocument d = .ok t) (hn : (n, path) ∈ t.sites)
    {ns : List Node} (hns : ns.Sublist n.children) (direct : Bool) :
    ((ns.map fun c => (⟨c, n, path, direct⟩ : Pending)).map Pending.weight).sum ≤
      t.arena.length := by
  have hsum : ((ns.map fun c => (⟨c, n, path, direct⟩ : Pending)).map Pending.weight).sum ≤
      (n.children.map fun c => (c.sites (n :: path)).length).sum := by
    rw [List.map_map]
    exact (hns.map _).sum_le_sum fun _ _ => Nat.zero_le _
  have hle := length_sites_le ht hn
  rw [Node.sites_eq, List.length_cons, List.length_flatMap] at hle
  omega

section

variable (ht : Tree.ofDocument d = .ok t) (hn : (n, path) ∈ t.sites)

include ht hn

/-- A scan that starts from children of a node. -/
theorem scan_children {β : Type} {enters : Kind → Bool}
    {own : NodeId → Bool → Except Stray (List β)} (collect mine : Bool → Node → Node → List β)
    (hown : ∀ m p rest direct, (m, p :: rest) ∈ t.sites → own m.id direct = .ok (mine direct p m))
    (hcollect : ∀ direct p m, collect direct p m =
      mine direct p m ++ if enters m.kind then m.children.flatMap (collect false m) else [])
    {ns : List Node} (hns : ns.Sublist n.children) (direct : Bool) :
    scan t.arena enters own t.arena.length ((ns.map (·.id)).map fun id => (id, direct)) =
      .ok (ns.flatMap (collect direct n)) := by
  have hscan := scan_eq ht collect mine hown hcollect t.arena.length
    (ns.map fun c => ⟨c, n, path, direct⟩) (fun s hs => ?_) (sum_weights_le ht hn hns direct)
  · simpa [List.flatMap_map, Function.comp_def] using hscan
  · obtain ⟨c, hc, rfl⟩ := List.mem_map.mp hs
    exact Tree.mem_sites_cons.mpr ⟨hn, hns.subset hc⟩

omit hn in
/-- The scan for hoisted declarations, from children of a node that are direct statements. -/
theorem scan_hoisted {m : Node} {rest : List Node} (hm : (m, rest) ∈ t.sites) {ns : List Node}
    (hns : ns.Sublist m.children) :
    scan t.arena (fun k => !k.isFunction) (ownDeclarations t.arena) t.arena.length
      ((ns.map (·.id)).map fun id => (id, true)) = .ok (ns.flatMap (hoistedIn true m)) := by
  refine scan_children ht hm hoistedIn
    (fun direct p m =>
      if m.kind.isFunction && !direct then [] else Scope.declarations (some p) m) ?_ ?_ hns true
  · intro m p rest direct hm
    unfold ownDeclarations
    rw [entry_eq ht hm, ok_bind, Node.kind_entry, declarations_eq ht hm]
    split <;> rfl
  · intro direct p m
    obtain ⟨id, kind, role, fields, children⟩ := m
    cases kind <;> cases direct <;>
      simp [hoistedIn, hoistedBelow_eq, Kind.isFunction, Scope.declarations]

theorem hoisted_eq : hoisted t.arena n.id = .ok (Scope.hoisted n) := by
  obtain ⟨parent, hbody⟩ := bodyBlock?_eq ht hn
  unfold hoisted Scope.hoisted
  rw [entry_eq ht hn, ok_bind, hbody]
  cases hblock : Scope.bodyBlock? n with
  | some block =>
    obtain ⟨rest, hsite⟩ := exists_site_of_bodyBlock? hn hblock
    have hfixed : fixedPlan? block.kind = some [("body", .reference)] := by
      rcases bodyBlock?_eq_some hblock with ⟨rfl, hk⟩ | ⟨-, -, hk⟩ <;> rw [hk] <;> rfl
    have hchildren := Tree.children_eq_body ht hsite hfixed
    have hsub : (block.listNodes "body").Sublist block.children :=
      hchildren ▸ List.sublist_append_right _ _
    have hscan := scan_hoisted ht hsite hsub
    rw [← (Tree.linked ht hsite).listNodes_ids parent] at hscan
    exact hscan
  | none =>
    have hk : n.kind ≠ .program := fun hk => by simp [Scope.bodyBlock?, hk] at hblock
    have hsub : (n.child? "body").toList.Sublist n.children := by
      cases hchild : n.child? "body" with
      | none => exact List.nil_sublist _
      | some c => exact List.singleton_sublist.mpr (Node.child?_mem hchild)
    have hscan := scan_hoisted ht hn hsub
    simp only [if_neg hk, Node.kind_entry, (Tree.linked ht hn).child?_entry, Option.map_none,
      ok_bind]
    rw [Option.toList_map]
    exact hscan

theorem blockNames_eq : blockNames t.arena n.id = .ok (Scope.blockNames n) := by
  have hscan : scan t.arena (fun k => !(k.isFunction || k.opensBlock)) (ownNames t.arena)
      t.arena.length ((n.children.map (·.id)).map fun id => (id, false)) =
      .ok (lexicalNamesBelow n n.children) := by
    rw [lexicalNamesBelow_eq]
    refine scan_children ht hn (fun _ => lexicalNamesIn)
      (fun _ p m =>
        if m.kind.isFunction || m.kind.opensBlock then []
        else ((Scope.declarations (some p) m).filter (·.binding = .lexical)).map (·.name))
      ?_ ?_ (List.Sublist.refl _) false
    · intro m p rest direct hm
      unfold ownNames
      rw [entry_eq ht hm, ok_bind, Node.kind_entry, declarations_eq ht hm]
      split <;> rfl
    · intro direct p m
      obtain ⟨id, kind, role, fields, children⟩ := m
      simp only [lexicalNamesIn, lexicalNamesBelow_eq]
      cases kind.isFunction || kind.opensBlock <;> simp
  unfold blockNames Scope.blockNames
  rw [entry_eq ht hn, ok_bind, Node.children_entry, hscan, ok_bind]
  rfl

end

end Checked

end ScriptSandbox.Scope
