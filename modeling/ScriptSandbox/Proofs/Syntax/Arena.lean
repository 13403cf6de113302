import ScriptSandbox.Proofs.Syntax.RoundTrip

/-
  A tree as a flat list of entries.

  The arena of a tree has an entry for every node, at the position of its number, and an entry
  refers to the nodes below it and to its parent by number. Walking the arena from the first entry
  along the children gives every number once, in order, and walking it from any other entry gives a
  block of consecutive numbers (`Arena.Numbered`). The chain of parents above an entry is the path
  of its site (`Tree.ancestors_eq`), so it falls and ends at the first entry.
-/

namespace ScriptSandbox.Syntax

/-! ## Arenas -/

/-- A node without those below it. -/
structure Entry where
  kind : Kind
  role : Role
  parent : Option NodeId
  children : List NodeId
  fields : List (String × Field)

/-- Entries by number. -/
abbrev Arena := List Entry

/-- The numbers in a field: those of the nodes in a visited field, holes left out. -/
def Field.ids : Field → List NodeId
  | .node id => [id]
  | .list slots => slots.filterMap fun slot => slot
  | .data _ => []

/-- The numbers in the field with a given key. -/
def idsIn (fields : List (String × Field)) (key : String) : List NodeId :=
  ((Node.fieldValue? key fields).map Field.ids).getD []

namespace Entry

/-- The node of an entry, without those below it. -/
def bare (id : NodeId) (e : Entry) : Node := ⟨id, e.kind, e.role, e.fields, []⟩

/-- The number in a visited field of one node. -/
def child? (e : Entry) (key : String) : Option NodeId :=
  match Node.fieldValue? key e.fields with
  | some (.node id) => some id
  | _ => none

/-- The slots of a visited list. -/
def list? (e : Entry) (key : String) : Option (List (Option NodeId)) :=
  match Node.fieldValue? key e.fields with
  | some (.list slots) => some slots
  | _ => none

/-- The keys of the fields that are visited, in the order in which they are. -/
def visitOrder (e : Entry) : List String :=
  match e.kind with
  | .program | .blockStatement | .catchClause => ["body"]
  | .functionDeclaration | .functionExpression | .arrowFunctionExpression => ["body"]
  | .callExpression | .newExpression => ["arguments", "callee"]
  | .whileStatement | .doWhileStatement => ["test", "body"]
  | .variableDeclaration => ["declarations"]
  | .variableDeclarator => ["init"]
  | .arrayExpression => ["elements"]
  | .labeledStatement => ["label", "body"]
  | .classDeclaration => ["superClass", "body"]
  | .breakStatement | .continueStatement => ["label"]
  | .identifier | .literal | .thisExpression => []
  | _ => e.fields.map (·.1)

/-- The children stand in the fields of the entry and nowhere else, and their order is that of the
    visit. -/
structure Listed (e : Entry) : Prop where
  visited : e.children = e.visitOrder.flatMap (idsIn e.fields)
  all : e.children.Perm (e.fields.flatMap (·.2.ids))

end Entry

/-- The entry of a node. -/
def Node.entry (parent : Option NodeId) (n : Node) : Entry :=
  ⟨n.kind, n.role, parent, n.children.map (·.id), n.fields⟩

@[simp] theorem Node.kind_entry (parent : Option NodeId) (n : Node) :
    (n.entry parent).kind = n.kind := rfl

@[simp] theorem Node.children_entry (parent : Option NodeId) (n : Node) :
    (n.entry parent).children = n.children.map (·.id) := rfl

@[simp] theorem Node.list?_entry (parent : Option NodeId) (n : Node) (key : String) :
    (n.entry parent).list? key = n.list? key := rfl

/-- What is read off the node of an entry is what the node itself has. -/
@[simp] theorem Node.stringData?_bare_entry (parent : Option NodeId) (n : Node) (key : String) :
    ((n.entry parent).bare n.id).stringData? key = n.stringData? key := rfl

/-- The entries of all nodes, in order of their numbers. -/
def Tree.arena (t : Tree) : Arena := t.nodes.map fun e => e.1.entry e.2

namespace Arena

def children (a : Arena) (id : NodeId) : List NodeId := (a[id]?.map (·.children)).getD []

def parent? (a : Arena) (id : NodeId) : Option NodeId := a[id]?.bind (·.parent)

/-- The numbers met on a walk from an entry along the children, at most `depth` entries deep. -/
def preorder (a : Arena) : (depth : Nat) → NodeId → List NodeId
  | 0, _ => []
  | depth + 1, id =>
    match a[id]? with
    | none => []
    | some e => id :: e.children.flatMap (preorder a depth)

/-- The chain of parents above an entry. -/
inductive Climbs (a : Arena) : NodeId → List NodeId → Prop
  | top {id : NodeId} (h : a.parent? id = none) : Climbs a id []
  | up {id p : NodeId} {above : List NodeId} (h : a.parent? id = some p) (rest : Climbs a p above) :
    Climbs a id (p :: above)

/-- The arena is a tree, numbered in the order of a walk. -/
structure Numbered (a : Arena) : Prop where
  /-- The walk from the first entry. -/
  walk : ∀ depth ≥ a.length, a.preorder depth 0 = List.range a.length
  /-- The walk from any entry gives consecutive numbers. -/
  block : ∀ id < a.length, ∃ count, ∀ depth ≥ a.length,
    a.preorder depth id = List.range' id count
  root : a.parent? 0 = none ∧ ∀ q, 0 ∉ a.children q
  /-- Any other entry is a child of its parent only. -/
  parent : ∀ id, 0 < id → id < a.length →
    ∃ p < id, a.parent? id = some p ∧ ∀ q, id ∈ a.children q ↔ q = p
  ascending : ∀ e ∈ a, e.children.Pairwise (· < ·)
  listed : ∀ e ∈ a, e.Listed

end Arena

/-! ## Children and fields -/

section

variable {α β : Type} {f : α → List β} {l l' : List α}

/-- Elements that contribute nothing may be left out. -/
theorem flatMap_eq_of_sublist (h : l.Sublist l') (hnodup : l'.Nodup)
    (hf : ∀ x ∈ l', x ∉ l → f x = []) : l'.flatMap f = l.flatMap f := by
  induction h with
  | slnil => rfl
  | cons x hsub ih =>
    obtain ⟨hx, hnodup⟩ := List.nodup_cons.mp hnodup
    rw [List.flatMap_cons, hf x List.mem_cons_self fun hmem => hx (hsub.subset hmem),
      List.nil_append, ih hnodup fun y hy => hf y (List.mem_cons_of_mem _ hy)]
  | cons_cons x hsub ih =>
    obtain ⟨hx, hnodup⟩ := List.nodup_cons.mp hnodup
    rw [List.flatMap_cons, List.flatMap_cons, ih hnodup fun y hy hnot => ?_]
    refine hf y (List.mem_cons_of_mem _ hy) (List.not_mem_cons_of_ne_of_not_mem ?_ hnot)
    rintro rfl
    exact hx hy

theorem flatMap_filter_ne_nil [DecidableEq β] (f : α → List β) (l : List α) :
    (l.filter fun x => f x ≠ []).flatMap f = l.flatMap f := by
  induction l with
  | nil => rfl
  | cons x l ih =>
    by_cases hx : f x = [] <;> simp_all

/-- The order of the elements does not matter for what they contribute, nor do those elements that
    contribute nothing. -/
theorem flatMap_perm [DecidableEq β] (hl : l.Nodup) (hl' : l'.Nodup)
    (h : ∀ x, f x ≠ [] → (x ∈ l ↔ x ∈ l')) : (l.flatMap f).Perm (l'.flatMap f) := by
  rw [← flatMap_filter_ne_nil f l, ← flatMap_filter_ne_nil f l']
  refine List.Perm.flatMap_right f
    ((List.perm_ext_iff_of_nodup (hl.filter _) (hl'.filter _)).mpr fun x => ?_)
  by_cases hx : f x = [] <;> simp [hx, h]

end

section

variable {good : Node → Prop} {visits : List (String × Visit)} {plan : List (String × Role)}

/-- The field of a visited value has the numbers of the nodes in it. -/
theorem ids_numberVisit {v : Visit} (hv : v.Sound good) (role : Role) (id : NodeId) :
    ((numberVisit role v id).1.1.map Field.ids).getD [] =
      (numberVisit role v id).1.2.map (·.id) := by
  cases v with
  | node u => rfl
  | list slots => exact (numberSlots_sound role hv id).2
  | plain => rfl

theorem idsIn_cons_self (key : String) (f : Field) (fields : List (String × Field)) :
    idsIn ((key, f) :: fields) key = f.ids := by simp [idsIn, Node.fieldValue?]

theorem idsIn_cons_of_ne {key other : String} (h : other ≠ key) (f : Field)
    (fields : List (String × Field)) : idsIn ((key, f) :: fields) other = idsIn fields other := by
  simp [idsIn, Node.fieldValue?, h.symm]

theorem idsIn_of_notMem {fields : List (String × Field)} {key : String}
    (h : key ∉ fields.map (·.1)) : idsIn fields key = [] := by
  induction fields with
  | nil => rfl
  | cons e fields ih =>
    obtain ⟨hne, h⟩ := not_or.mp (mt List.mem_cons.mpr h)
    exact (idsIn_cons_of_ne hne e.2 fields).trans (ih h)

theorem idsIn_numberPlan_of_notMem {key : String} (hkey : key ∉ plan.map (·.1)) (id : NodeId) :
    idsIn (numberPlan visits plan id).1.1 key = [] := by
  rw [idsIn, fieldValue?_numberPlan_of_notMem visits hkey]
  rfl

theorem idsIn_numberPlan_of_none {key : String} (hkey : visitOf? key visits = none)
    (plan : List (String × Role)) (id : NodeId) :
    idsIn (numberPlan visits plan id).1.1 key = [] := by
  induction plan generalizing id with
  | nil => rfl
  | cons e plan ih =>
    obtain ⟨k, role⟩ := e
    simp only [numberPlan]
    split
    · exact ih id
    · next v hv =>
      have hne : key ≠ k := by
        rintro rfl
        rw [hkey] at hv
        cases hv
      split
      · exact (idsIn_cons_of_ne hne _ _).trans (ih _)
      · exact ih _

/-- The children come from the fields of the plan, one after the other. -/
theorem ids_numberPlan (hv : ∀ e ∈ visits, e.2.Sound good) (hplan : (plan.map (·.1)).Nodup)
    (id : NodeId) : (numberPlan visits plan id).1.2.map (·.id) =
      (plan.map (·.1)).flatMap (idsIn (numberPlan visits plan id).1.1) := by
  induction plan generalizing id with
  | nil => rfl
  | cons e plan ih =>
    obtain ⟨key, role⟩ := e
    obtain ⟨hkey, hplan⟩ := List.nodup_cons.mp hplan
    simp only [numberPlan]
    rw [List.map_cons, List.flatMap_cons]
    split
    · rw [idsIn_numberPlan_of_notMem hkey, List.nil_append]
      exact ih hplan id
    · next v hvisit =>
      have hfirst := ids_numberVisit (visitOf?_sound hv hvisit) role id
      have hrest := ih hplan (numberVisit role v id).2
      split
      · next f hf =>
        rw [hf] at hfirst
        have hothers : (plan.map (·.1)).flatMap
            (idsIn ((key, f) :: (numberPlan visits plan (numberVisit role v id).2).1.1)) =
            (plan.map (·.1)).flatMap
              (idsIn (numberPlan visits plan (numberVisit role v id).2).1.1) :=
          List.flatMap_congr fun k hk =>
            idsIn_cons_of_ne (fun he : k = key => hkey (he ▸ hk)) _ _
        rw [List.map_append, idsIn_cons_self, hothers, ← hrest, ← hfirst]
        rfl
      · next hf =>
        rw [hf] at hfirst
        rw [List.map_append, idsIn_numberPlan_of_notMem hkey, ← hrest, ← hfirst]
        rfl

end

section

variable {kind : Kind} {fields : List (String × Document)} {plan : List (String × Role)}

theorem keys_visitFields (fields : List (String × Document)) :
    (visitFields fields).map (·.1) = fields.map (·.1) := by
  induction fields with
  | nil => rfl
  | cons e fields ih =>
    obtain ⟨key, value⟩ := e
    simp [visitFields, ih]

theorem nodup_fixedPlan (h : fixedPlan? kind = some plan) : (plan.map (·.1)).Nodup := by
  unfold fixedPlan? at h
  split at h <;> cases h <;> decide

theorem visitPlan_sublist (h : fixedPlan? kind = none) :
    ((visitPlan kind fields (visitFields fields)).map (·.1)).Sublist (fields.map (·.1)) := by
  rw [← keys_visitFields fields, visitPlan, h, List.map_filterMap]
  generalize visitFields fields = visits
  induction visits with
  | nil => exact .slnil
  | cons e visits ih =>
    obtain ⟨key, v⟩ := e
    simp only [List.map_cons, List.filterMap_cons]
    cases visitedAnyway key v with
    | false => exact .cons _ ih
    | true => exact .cons_cons _ ih

theorem nodup_visitPlan (hfields : (fields.map (·.1)).Nodup) :
    ((visitPlan kind fields (visitFields fields)).map (·.1)).Nodup := by
  cases h : fixedPlan? kind with
  | some plan =>
    rw [visitPlan, h]
    exact nodup_fixedPlan h
  | none => exact hfields.sublist (visitPlan_sublist h)

/-- The order of the visit is that of the plan, where the kind has one. -/
theorem visitOrder_of_fixed {e : Entry} (h : fixedPlan? e.kind = some plan) :
    e.visitOrder = plan.map (·.1) := by
  obtain ⟨kind, role, parent, children, fields⟩ := e
  cases kind <;> cases h <;> rfl

theorem visitOrder_of_generic {e : Entry} (h : fixedPlan? e.kind = none) :
    e.visitOrder = e.fields.map (·.1) := by
  obtain ⟨kind, role, parent, children, fields⟩ := e
  cases kind <;> first | rfl | cases h

/-- A kept field has no numbers, so those of a node are those of its visited fields. -/
theorem idsIn_numbered (visits : List (String × Visit)) (plan : List (String × Role))
    (hvisits : visits = visitFields fields) (id : NodeId) (key : String) :
    idsIn (fields.map fun (k, d) =>
        (k, (Node.fieldValue? k (numberPlan visits plan id).1.1).getD (.data d))) key =
      idsIn (numberPlan visits plan id).1.1 key := by
  rw [idsIn, fieldValue?_map]
  cases hkey : Document.fieldValue? key fields with
  | none =>
    refine (idsIn_numberPlan_of_none ?_ plan id).symm
    rw [hvisits, visitOf?_visitFields, hkey, Option.map_none]
  | some d =>
    rw [idsIn]
    cases Node.fieldValue? key (numberPlan visits plan id).1.1 <;> rfl

theorem fieldValue?_of_mem {fields : List (String × Field)} (h : (fields.map (·.1)).Nodup)
    {e : String × Field} (he : e ∈ fields) : Node.fieldValue? e.1 fields = some e.2 := by
  induction fields with
  | nil => cases he
  | cons e' fields ih =>
    obtain ⟨hnot, h⟩ := List.nodup_cons.mp h
    rcases List.mem_cons.mp he with rfl | he
    · exact if_pos rfl
    · have hne : e'.1 ≠ e.1 := fun heq => hnot (List.mem_map.mpr ⟨e, he, heq.symm⟩)
      exact (if_neg hne).trans (ih h he)

theorem flatMap_ids {fields : List (String × Field)} (h : (fields.map (·.1)).Nodup) :
    fields.flatMap (·.2.ids) = (fields.map (·.1)).flatMap (idsIn fields) := by
  rw [List.flatMap_map]
  refine List.flatMap_congr fun e he => ?_
  rw [idsIn, fieldValue?_of_mem h he]
  rfl

/-- With distinct keys, the children of a numbered node are listed by its fields. -/
theorem listed_numberNode (hkeys : (fields.map (·.1)).Nodup) {good : Node → Prop}
    (hv : ∀ e ∈ visitFields fields, e.2.Sound good) (role : Role) (id : NodeId)
    (parent : Option NodeId) :
    ((numberNode kind fields (visitFields fields) role id).1.entry parent).Listed := by
  generalize hentry : (numberNode kind fields (visitFields fields) role id).1.entry parent = e
  have hkind : e.kind = kind := by rw [← hentry]; rfl
  have hnames : e.fields.map (·.1) = fields.map (·.1) := by
    rw [← hentry]
    exact @keys_numberNode kind fields (visitFields fields) role id
  have hids (key : String) : idsIn e.fields key = idsIn (numberPlan (visitFields fields)
      (visitPlan kind fields (visitFields fields)) (id + 1)).1.1 key := by
    rw [← hentry]
    exact idsIn_numbered _ _ rfl _ key
  have hplan : ((visitPlan kind fields (visitFields fields)).map (·.1)).Nodup :=
    nodup_visitPlan hkeys
  have hchildren : e.children =
      ((visitPlan kind fields (visitFields fields)).map (·.1)).flatMap (idsIn e.fields) := by
    rw [funext hids, ← ids_numberPlan hv hplan, ← hentry]
    rfl
  have hnone {key : String}
      (hkey : key ∉ (visitPlan kind fields (visitFields fields)).map (·.1)) :
      idsIn e.fields key = [] := (hids key).trans (idsIn_numberPlan_of_notMem hkey _)
  constructor
  case visited =>
    rw [hchildren]
    cases hfixed : fixedPlan? kind with
    | some plan => rw [visitOrder_of_fixed (hkind ▸ hfixed), visitPlan, hfixed]
    | none =>
      rw [visitOrder_of_generic (hkind ▸ hfixed), hnames]
      exact (flatMap_eq_of_sublist (visitPlan_sublist hfixed) hkeys fun _ _ => hnone).symm
  case all =>
    rw [hchildren, flatMap_ids (hnames ▸ hkeys), hnames]
    refine flatMap_perm hplan hkeys fun key hkey => ⟨fun _ => ?_, fun _ => ?_⟩
    · by_contra hnot
      rw [← hnames] at hnot
      exact hkey (idsIn_of_notMem hnot)
    · by_contra hnot
      exact hkey (hnone hnot)

end

/-! ## Numbers in fields -/

/-- The numbers in the fields of a node are those of its children. -/
def Node.Linked (n : Node) : Prop :=
  ∀ key, ∀ id ∈ idsIn n.fields key, ∃ c ∈ n.children, c.id = id

theorem linked_numberNode {kind : Kind} {fields : List (String × Document)} {good : Node → Prop}
    (hv : ∀ e ∈ visitFields fields, e.2.Sound good) (role : Role) (id : NodeId) :
    (numberNode kind fields (visitFields fields) role id).1.Linked := by
  intro key i hi
  rw [show idsIn (numberNode kind fields (visitFields fields) role id).1.fields key = _ from
    idsIn_numbered _ _ rfl (id + 1) key] at hi
  cases hvisit : visitOf? key (visitFields fields) with
  | none =>
    rw [idsIn_numberPlan_of_none hvisit] at hi
    cases hi
  | some v =>
    by_cases hkey : key ∈ (visitPlan kind fields (visitFields fields)).map (·.1)
    · obtain ⟨role, next, hfield, hnodes⟩ := exists_numberVisit hvisit hkey (id + 1)
      rw [idsIn, hfield, ids_numberVisit (visitOf?_sound hv hvisit)] at hi
      obtain ⟨c, hc, hid⟩ := List.mem_map.mp hi
      exact ⟨c, hnodes c hc, hid⟩
    · rw [idsIn_numberPlan_of_notMem hkey] at hi
      cases hi

theorem carries_linked : Carries (fun _ => True) Node.Linked where
  items _ _ _ _ := trivial
  fields _ _ _ _ := trivial
  node _ _ _ _ hv := linked_numberNode hv

theorem Node.mem_idsIn_of_list? {n : Node} {key : String} {slots : List (Option NodeId)}
    (h : n.list? key = some slots) {id : NodeId} (hid : some id ∈ slots) :
    id ∈ idsIn n.fields key := by
  unfold list? field? at h
  split at h
  · next slots' hfield =>
    cases h
    simpa [idsIn, hfield, Field.ids] using hid
  · cases h

theorem Node.mem_idsIn_of_mem_slots {n : Node} {key : String} {id : NodeId}
    (h : some id ∈ (n.list? key).getD []) : id ∈ idsIn n.fields key := by
  cases hlist : n.list? key with
  | none => simp [hlist] at h
  | some slots => exact mem_idsIn_of_list? hlist (by simpa [hlist] using h)

namespace Node.Linked

variable {n : Node} {key : String} {id : NodeId}

theorem exists_childAt? (h : n.Linked) (hid : id ∈ idsIn n.fields key) :
    ∃ c ∈ n.children, n.childAt? id = some c ∧ c.id = id := by
  obtain ⟨c, hc, rfl⟩ := h key id hid
  cases hfind : n.childAt? c.id with
  | none => exact absurd (List.find?_eq_none.mp hfind c hc) (by simp)
  | some c' => exact ⟨c', childAt?_mem hfind, rfl, by simpa using List.find?_some hfind⟩

/-- The node in a field of one node is the child with the number in the field. -/
theorem child?_entry (h : n.Linked) (parent : Option NodeId) (key : String) :
    (n.entry parent).child? key = (n.child? key).map (·.id) := by
  unfold Entry.child? Node.child?
  change (match fieldValue? key n.fields with | some (.node id) => some id | _ => none) =
    Option.map Node.id
      (match fieldValue? key n.fields with | some (.node id) => n.childAt? id | _ => none)
  cases hfield : fieldValue? key n.fields with
  | none => rfl
  | some f =>
    cases f with
    | node id =>
      have hmem : id ∈ idsIn n.fields key := by simp [idsIn, hfield, Field.ids]
      obtain ⟨c, -, hc, rfl⟩ := h.exists_childAt? hmem
      exact (congrArg (Option.map Node.id) hc).symm
    | list slots => rfl
    | data d => rfl

/-- The nodes of a list are the children with the numbers in its slots. -/
theorem listNodes_ids (h : n.Linked) (parent : Option NodeId) (key : String) :
    (((n.entry parent).list? key).getD []).filterMap (fun slot => slot) =
      (n.listNodes key).map (·.id) := by
  rw [list?_entry, listNodes, List.map_filterMap]
  refine List.filterMap_congr fun slot hslot => ?_
  cases slot with
  | none => rfl
  | some id =>
    obtain ⟨c, -, hc, rfl⟩ := h.exists_childAt? (mem_idsIn_of_mem_slots hslot)
    simp [hc]

end Node.Linked

/-! ## The entries and the sites of a tree -/

namespace Node

theorem walkAll_eq (parent : NodeId) (ns : List Node) :
    walkAll parent ns = ns.flatMap (·.walk (some parent)) := by
  induction ns with
  | nil => rfl
  | cons c rest ih => simp [walkAll, ih]

/-- A walk meets the sites, the parent being the nearest node around. -/
theorem walk_eq (n : Node) (around : List Node) :
    n.walk (around.head?.map (·.id)) =
      (n.sites around).map fun s => (s.1, s.2.head?.map (·.id)) := by
  induction n using induct generalizing around with
  | step n ih =>
    have hchildren : n.children.flatMap (·.walk (some n.id)) =
        n.children.flatMap fun c =>
          (c.sites (n :: around)).map fun s => (s.1, s.2.head?.map (·.id)) :=
      List.flatMap_congr fun c hc => ih c hc (n :: around)
    rw [sites_eq, List.map_cons, List.map_flatMap, ← hchildren]
    obtain ⟨id, kind, role, fields, children⟩ := n
    simp only [walk, walkAll_eq]

end Node

namespace Tree

variable {d : Document} {t : Tree} {n : Node} {path : List Node} {id : NodeId}

theorem linked (ht : Tree.ofDocument d = .ok t) (hn : (n, path) ∈ t.sites) : n.Linked :=
  (sound_of_carries carries_linked ht trivial).2 _ hn

theorem arena_eq (t : Tree) :
    t.arena = t.sites.map fun s => s.1.entry (s.2.head?.map (·.id)) := by
  rw [arena, nodes, show t.root.walk none = _ from Node.walk_eq t.root [], List.map_map]
  rfl

theorem parents_eq (t : Tree) : t.parents = t.arena.map (·.parent) := by
  rw [parents, arena, List.map_map]
  rfl

theorem length_arena (ht : Tree.ofDocument d = .ok t) : t.arena.length = t.size := by
  rw [arena_eq, List.length_map, ← List.length_range (n := t.size), ← map_id_sites ht,
    List.length_map]

/-- A node is numbered by its position. -/
theorem sites_getElem? (ht : Tree.ofDocument d = .ok t) (hn : (n, path) ∈ t.sites) :
    t.sites[n.id]? = some (n, path) := by
  obtain ⟨i, hi, he⟩ := List.mem_iff_getElem.mp hn
  have hnumber : (t.sites.map (·.1.id))[i]? = some n.id := by
    rw [List.getElem?_map, List.getElem?_eq_getElem hi, he, Option.map_some]
  rw [map_id_sites ht] at hnumber
  obtain ⟨_, hnumber⟩ := List.getElem?_eq_some_iff.mp hnumber
  rw [List.getElem_range] at hnumber
  rw [← hnumber, List.getElem?_eq_getElem hi, he]

theorem arena_getElem? (ht : Tree.ofDocument d = .ok t) (hn : (n, path) ∈ t.sites) :
    t.arena[n.id]? = some (n.entry (path.head?.map (·.id))) := by
  rw [arena_eq, List.getElem?_map, sites_getElem? ht hn, Option.map_some]

/-- Every number of the arena belongs to a site. -/
theorem exists_site (ht : Tree.ofDocument d = .ok t) (hid : id < t.arena.length) :
    ∃ n path, (n, path) ∈ t.sites ∧ n.id = id := by
  rw [length_arena ht, ← List.mem_range, ← map_id_sites ht] at hid
  obtain ⟨⟨n, path⟩, hn, rfl⟩ := List.mem_map.mp hid
  exact ⟨n, path, hn, rfl⟩

theorem children_arena (ht : Tree.ofDocument d = .ok t) (hn : (n, path) ∈ t.sites) :
    t.arena.children n.id = n.children.map (·.id) := by
  rw [Arena.children, arena_getElem? ht hn]
  rfl

theorem parent?_arena (ht : Tree.ofDocument d = .ok t) (hn : (n, path) ∈ t.sites) :
    t.arena.parent? n.id = path.head?.map (·.id) := by
  rw [Arena.parent?, arena_getElem? ht hn]
  rfl

/-! ## Walking the arena -/

theorem le_size (ht : Tree.ofDocument d = .ok t) (hn : (n, path) ∈ t.sites) {i j : Nat}
    (hs : n.Spans i j) : j ≤ t.size := by
  obtain ⟨hlt, hids⟩ := Node.map_id_sites hs path
  have hlast : j - 1 ∈ (n.sites path).map (·.1.id) := by
    rw [hids, List.mem_range'_1]
    omega
  obtain ⟨s, hmem, hid⟩ := List.mem_map.mp hlast
  have hbound : j - 1 < t.size := hid ▸ id_lt_size ht (Node.sites_subset hn hmem)
  omega

/-- A walk from a node gives the numbers that the node spans. -/
theorem preorder_eq (ht : Tree.ofDocument d = .ok t) (hn : (n, path) ∈ t.sites) {i j : Nat}
    (hs : n.Spans i j) (depth : Nat) (hdepth : j ≤ i + depth) :
    t.arena.preorder depth n.id = List.range' i (j - i) := by
  refine walk_induct
    (fun n _ i j => ∀ depth, j ≤ i + depth → t.arena.preorder depth n.id = List.range' i (j - i))
    (fun ns _ i j => ∀ depth, j ≤ i + depth →
      (ns.map (·.id)).flatMap (t.arena.preorder depth) = List.range' i (j - i))
    ?below ?nil ?cons hn hs depth hdepth
  case below =>
    intro n path j hn hlt hbelow depth hdepth
    obtain ⟨depth, rfl⟩ : ∃ depth', depth = depth' + 1 := ⟨depth - 1, by omega⟩
    have hsplit : j - n.id = (j - (n.id + 1)) + 1 := by omega
    rw [Arena.preorder, arena_getElem? ht hn, hsplit, List.range'_succ,
      ← hbelow depth (by omega)]
    rfl
  case nil =>
    intro path i depth hdepth
    simp
  case cons =>
    intro c rest path i mid j hstart hend hfirst hothers depth hdepth
    have hsplit : j - i = (mid - i) + (j - mid) := by omega
    have hmid : i + (mid - i) = mid := by omega
    rw [List.map_cons, List.flatMap_cons, hfirst depth (by omega), hothers depth (by omega),
      hsplit, ← List.range'_append_1, hmid]

/-! ## Parents -/

/-- A node is a child of the node next to it on its path, and of no other. -/
theorem mem_children_arena (ht : Tree.ofDocument d = .ok t) (hn : (n, path) ∈ t.sites)
    (q : NodeId) : n.id ∈ t.arena.children q ↔ path.head?.map (·.id) = some q := by
  constructor
  · intro hmem
    have hq : q < t.arena.length := by
      by_contra hq
      simp [Arena.children, List.getElem?_eq_none (Nat.le_of_not_lt hq)] at hmem
    obtain ⟨m, rest, hm, rfl⟩ := exists_site ht hq
    rw [children_arena ht hm] at hmem
    obtain ⟨c, hc, hid⟩ := List.mem_map.mp hmem
    cases site_unique ht (mem_sites_cons.mpr ⟨hm, hc⟩) hn hid
    rfl
  · intro hq
    obtain ⟨p, hp, rfl⟩ := Option.map_eq_some_iff.mp hq
    obtain ⟨rest, rfl⟩ := List.head?_eq_some_iff.mp hp
    obtain ⟨hp, hmem⟩ := mem_sites_cons.mp hn
    rw [children_arena ht hp]
    exact List.mem_map.mpr ⟨n, hmem, rfl⟩

/-- Along the path of a site the numbers fall. -/
theorem pairwise_path (ht : Tree.ofDocument d = .ok t) (hn : (n, path) ∈ t.sites) :
    ((n :: path).map (·.id)).Pairwise (· > ·) := by
  induction path generalizing n with
  | nil => simp
  | cons p rest ih =>
    rw [List.map_cons]
    refine List.pairwise_cons.mpr ⟨fun id hid => ?_, ih (mem_sites_cons.mp hn).1⟩
    obtain ⟨x, hx, rfl⟩ := List.mem_map.mp hid
    exact id_lt_of_mem_around ht hn x hx

/-- The path of a site ends at the root. -/
theorem getLast?_path (hn : (n, path) ∈ t.sites) : (n :: path).getLast? = some t.root := by
  rcases Node.eq_append_of_mem_sites hn with ⟨rfl, rfl⟩ | ⟨between, rfl⟩
  · rfl
  · rw [← List.cons_append, List.getLast?_concat]

theorem length_path_le (ht : Tree.ofDocument d = .ok t) (hn : (n, path) ∈ t.sites) :
    path.length ≤ n.id := by
  induction path generalizing n with
  | nil => exact Nat.zero_le _
  | cons p rest ih =>
    have hlt := id_lt_of_mem_around ht hn p List.mem_cons_self
    exact Nat.lt_of_le_of_lt (ih (mem_sites_cons.mp hn).1) hlt

theorem ancestorsWithin_eq (ht : Tree.ofDocument d = .ok t) (hn : (n, path) ∈ t.sites)
    (steps : Nat) : ancestorsWithin t.parents steps n.id = (path.map (·.id)).take steps := by
  have hparent {m : Node} {rest : List Node} (hm : (m, rest) ∈ t.sites) :
      t.parents[m.id]?.join = rest.head?.map (·.id) := by
    rw [parents_eq, List.getElem?_map, arena_getElem? ht hm]
    rfl
  induction steps generalizing n path with
  | zero => rfl
  | succ steps ih =>
    rw [ancestorsWithin, hparent hn]
    cases path with
    | nil => rfl
    | cons p rest =>
      rw [List.head?_cons, Option.map_some, List.map_cons, List.take_succ_cons]
      exact congrArg _ (ih (mem_sites_cons.mp hn).1)

/-- The nodes above a node are those of its path. -/
theorem ancestors_eq (ht : Tree.ofDocument d = .ok t) (hn : (n, path) ∈ t.sites) :
    t.ancestors n.id = path.map (·.id) := by
  rw [ancestors, ancestorsWithin_eq ht hn, List.take_of_length_le]
  rw [List.length_map]
  exact Nat.le_trans (length_path_le ht hn) (Nat.le_of_lt (id_lt_size ht hn))

theorem climbs_path (ht : Tree.ofDocument d = .ok t) (hn : (n, path) ∈ t.sites) :
    t.arena.Climbs n.id (path.map (·.id)) := by
  induction path generalizing n with
  | nil => exact .top (parent?_arena ht hn)
  | cons p rest ih => exact .up (parent?_arena ht hn) (ih (mem_sites_cons.mp hn).1)

/-! ## Whole arenas -/

theorem carries_listed :
    Carries Document.KeysDistinct fun n => ∀ parent, (n.entry parent).Listed where
  items _ hd := Document.keysDistinct_array.mp hd
  fields _ hd := (Document.keysDistinct_object.mp hd).2
  node _ _ _ hd hv role id := listed_numberNode (Document.keysDistinct_object.mp hd).1 hv role id

theorem numbered_arena (ht : Tree.ofDocument d = .ok t) (hd : d.KeysDistinct) :
    t.arena.Numbered := by
  have hroot : (t.root, []) ∈ t.sites := Node.self_mem_sites t.root []
  obtain ⟨hspans, hlisted⟩ := sound_of_carries carries_listed ht hd
  have hzero : t.root.id = 0 := (Node.spans_iff.mp hspans).1
  have hlength := length_arena ht
  refine ⟨?walk, ?block, ?root, ?parent, ?ascending, ?listed⟩
  case walk =>
    intro depth hdepth
    rw [← hzero, preorder_eq ht hroot hspans depth (by omega), hlength, List.range_eq_range']
    rfl
  case block =>
    intro id hid
    obtain ⟨n, path, hn, rfl⟩ := exists_site ht hid
    obtain ⟨i, j, hij⟩ := Node.exists_spans_of_mem_sites hspans hn
    have hstart : n.id = i := (Node.spans_iff.mp hij).1
    have hend : j ≤ t.size := le_size ht hn hij
    refine ⟨j - i, fun depth hdepth => ?_⟩
    rw [preorder_eq ht hn hij depth (by omega), hstart]
  case root =>
    rw [← hzero]
    refine ⟨parent?_arena ht hroot, fun q hq => ?_⟩
    cases (mem_children_arena ht hroot q).mp hq
  case parent =>
    intro id hpos hid
    obtain ⟨n, path, hn, rfl⟩ := exists_site ht hid
    cases path with
    | nil =>
      rcases Node.eq_append_of_mem_sites hn with ⟨rfl, -⟩ | ⟨between, h⟩
      · exact absurd hzero (Nat.ne_of_gt hpos)
      · simp at h
    | cons p rest =>
      have hlt := id_lt_of_mem_around ht hn p List.mem_cons_self
      refine ⟨p.id, hlt, parent?_arena ht hn, fun q => ?_⟩
      rw [mem_children_arena ht hn, List.head?_cons, Option.map_some, Option.some.injEq, eq_comm]
  case ascending =>
    intro e he
    rw [arena_eq] at he
    obtain ⟨s, hs, rfl⟩ := List.mem_map.mp he
    obtain ⟨i, j, hij⟩ := Node.exists_spans_of_mem_sites hspans hs
    exact (Node.spans_iff.mp hij).2.pairwise_id
  case listed =>
    intro e he
    rw [arena_eq] at he
    obtain ⟨s, hs, rfl⟩ := List.mem_map.mp he
    exact hlisted s hs _

/-- The nodes of a document stand in its arena in the order of a walk, and the arena is a tree. So
    the chain of parents above a node ends, at the first entry, and its numbers fall. -/
theorem arena_numbered (ht : Tree.ofDocument d = .ok t) (hd : d.KeysDistinct) :
    t.nodes.map (·.1.id) = List.range t.size ∧ t.arena.length = t.size ∧ t.arena.Numbered ∧
      ∀ id < t.size, t.arena.Climbs id (t.ancestors id) ∧
        (id :: t.ancestors id).Pairwise (· > ·) ∧
        (id :: t.ancestors id).getLast? = some 0 := by
  have hlength := length_arena ht
  have hzero : t.root.id = 0 := (Node.spans_iff.mp (sound_ofDocument ht).1).1
  refine ⟨?numbers, hlength, numbered_arena ht hd, fun id hid => ?ancestors⟩
  case numbers =>
    rw [← map_id_sites ht, nodes, show t.root.walk none = _ from Node.walk_eq t.root [],
      List.map_map]
    rfl
  case ancestors =>
    obtain ⟨n, path, hn, rfl⟩ := exists_site ht (hlength ▸ hid)
    rw [ancestors_eq ht hn, ← List.map_cons, List.getLast?_map, getLast?_path hn, Option.map_some,
      hzero]
    exact ⟨climbs_path ht hn, pairwise_path ht hn, rfl⟩

end Tree

/-- `while (f(, a)) {}` with the body first and the callee before the arguments, among fields that
    are no nodes. -/
def scatteredDocument : Document :=
  .object [
    ("body", .object [("body", .array [.number (.integer 1)]), ("type", .string "BlockStatement")]),
    ("test", .object [
      ("callee", .object [("type", .string "Identifier"), ("name", .string "f")]),
      ("loc", .object [("type", .string "SourceLocation")]),
      ("arguments", .array [.null, .object [("type", .string "Identifier")]]),
      ("type", .string "CallExpression")]),
    ("type", .string "WhileStatement")]

theorem arena_numbered_scattered :
    ∃ t, Tree.ofDocument scatteredDocument = .ok t ∧ scatteredDocument.KeysDistinct ∧
      t.arena.map (·.children) = [[1, 4], [2, 3], [], [], []] ∧
      t.arena.map (fun e => e.kind.tag) =
        ["WhileStatement", "CallExpression", "Identifier", "Identifier", "BlockStatement"] ∧
      t.arena.Numbered ∧ t.ancestors 3 = [1, 0] := by
  have hkeys : scatteredDocument.KeysDistinct := by simp [scatteredDocument]
  have ⟨t, ht⟩ : ∃ t, Tree.ofDocument scatteredDocument = .ok t := ⟨_, rfl⟩
  obtain ⟨-, -, hnumbered, -⟩ := Tree.arena_numbered ht hkeys
  cases ht
  exact ⟨_, rfl, hkeys, rfl, rfl, hnumbered, rfl⟩

end ScriptSandbox.Syntax
