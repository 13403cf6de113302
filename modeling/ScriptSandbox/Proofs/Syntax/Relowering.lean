import ScriptSandbox.Proofs.Syntax.Arena
import ScriptSandbox.Proofs.Syntax.Overwriting

/-
  Lowering a document that has been written over.

  When nothing that is written into a node has a key that lowering looks at in a node of that kind
  (`Kind.Ignores`), the document of a tree with these fields written into it is lowered to the tree
  with the same fields written into it: with the same numbers, the same visited fields and the same
  children (`Tree.ofDocument_overwritten`).

  The value of a visited field is rebuilt after its nodes have got their numbers, so what is said of
  a value (`Relowers`) is said of it numbered at a certain place and rebuilt from there. That the
  plan of a node stays the same follows from it: whether a field is visited shows in the field that
  its numbering gives (`visitedAnyway_eq`).
-/

namespace ScriptSandbox.Syntax

/-! ## Keys that do not matter -/

/-- A key other than `type` that lowering does not look at in a node of this kind, whatever is
    there. -/
def Kind.Ignores (k : Kind) (key : String) : Prop :=
  key ≠ "type" ∧
    match fixedPlan? k with
    | some plan => key ∉ plan.map (·.1)
    | none => key ∈ skippedKeys

/-- Nothing that is written into the node matters to lowering. -/
def Overlooks (more : NodeId → List (String × Document)) (n : Node) : Prop :=
  ∀ key ∈ (more n.id).map (·.1), n.kind.Ignores key

variable {more : NodeId → List (String × Document)} {d : Document}

/-! ## Plans -/

/-- Whether there is something to visit shows in the field that a value becomes. -/
def Field.isVisited : Field → Bool
  | .node _ => true
  | .list slots => slots.any Option.isSome
  | .data _ => false

theorem any_isSome_numberSlots (role : Role) (slots : List (Option Unnumbered)) (id : NodeId) :
    (numberSlots role slots id).1.1.any Option.isSome = slots.any Option.isSome := by
  induction slots generalizing id with
  | nil => rfl
  | cons slot slots ih =>
    cases slot with
    | none => exact ih id
    | some u => rfl

theorem visitedAnyway_eq (key : String) (role : Role) (v : Visit) (id : NodeId) :
    visitedAnyway key v =
      (!skippedKeys.contains key &&
        ((numberVisit role v id).1.1.map Field.isVisited).getD false) := by
  cases v with
  | node u => rfl
  | list slots =>
    rw [visitedAnyway, numberVisit, Option.map_some, Option.getD_some, Field.isVisited,
      any_isSome_numberSlots]
  | plain => rfl

theorem visitedAnyway_of_mem_skippedKeys {key : String} (h : key ∈ skippedKeys) (v : Visit) :
    visitedAnyway key v = false := by
  have hskipped : skippedKeys.contains key = true := List.contains_iff_mem.mpr h
  rw [visitedAnyway.eq_def, hskipped, Bool.not_true, Bool.false_and]

theorem visitFields_eq (fields : List (String × Document)) :
    visitFields fields = fields.map fun e => (e.1, visitValue e.2) := by
  induction fields with
  | nil => rfl
  | cons e fields ih => rw [visitFields, ih, List.map_cons]

theorem visitPlan_of_fixed {k : Kind} {plan : List (String × Role)} (h : fixedPlan? k = some plan)
    (fields : List (String × Document)) (visits : List (String × Visit)) :
    visitPlan k fields visits = plan := by rw [visitPlan, h]

theorem visitPlan_of_generic {k : Kind} (h : fixedPlan? k = none)
    (fields : List (String × Document)) :
    visitPlan k fields (visitFields fields) = fields.filterMap fun e =>
      if visitedAnyway e.1 (visitValue e.2) then some (e.1, genericRole fields e.1) else none := by
  rw [visitPlan, h, visitFields_eq, List.filterMap_map]
  rfl

theorem Kind.Ignores.notMem_visitPlan {k : Kind} {key : String} (h : k.Ignores key)
    (fields : List (String × Document)) :
    key ∉ (visitPlan k fields (visitFields fields)).map (·.1) := by
  obtain ⟨-, h⟩ := h
  cases hplan : fixedPlan? k with
  | some plan =>
    rw [hplan] at h
    rwa [visitPlan_of_fixed hplan]
  | none =>
    rw [hplan] at h
    rw [visitPlan_of_generic hplan]
    intro hmem
    obtain ⟨r, hr, rfl⟩ := List.mem_map.mp hmem
    obtain ⟨e, -, he⟩ := List.mem_filterMap.mp hr
    rw [Option.ite_none_right_eq_some] at he
    obtain ⟨hvisited, he⟩ := he
    rw [← Option.some_inj.mp he] at h
    rw [visitedAnyway_of_mem_skippedKeys h] at hvisited
    cases hvisited

/-- The plan from its first key on. -/
theorem numberPlan_cons {visits : List (String × Visit)} {key : String} {v : Visit}
    (hv : visitOf? key visits = some v) (role : Role) (plan : List (String × Role)) (id : NodeId) :
    numberPlan visits ((key, role) :: plan) id =
      let r := numberVisit role v id
      let rest := numberPlan visits plan r.2
      ((r.1.1.toList.map (fun f => (key, f)) ++ rest.1.1, r.1.2 ++ rest.1.2), rest.2) := by
  rw [numberPlan, hv]
  dsimp only
  split
  · next f hf => rw [hf]; rfl
  · next hf => rw [hf]; rfl

theorem numberPlan_cons_of_none {visits : List (String × Visit)} {key : String}
    (hv : visitOf? key visits = none) (role : Role) (plan : List (String × Role)) (id : NodeId) :
    numberPlan visits ((key, role) :: plan) id = numberPlan visits plan id := by
  rw [numberPlan, hv]

/-! ## Numbering what has been rebuilt -/

/-- The nodes are rebuilt under their numbers, and what is written into them and into the nodes
    below them does not matter to lowering. -/
def RebuiltOver (more : NodeId → List (String × Document)) (built : List (NodeId × Document))
    (around : List Node) (nodes : List Node) : Prop :=
  ∀ n ∈ nodes, builtChild built n.id = n.rebuildWith (overwriting more) ∧
    ∀ s ∈ n.sites around, Overlooks more s.1

theorem rebuiltOver_children {n : Node} {around : List Node}
    (hns : (n.children.map (·.id)).Nodup) (hover : ∀ s ∈ n.sites around, Overlooks more s.1) :
    RebuiltOver more (Node.rebuildAllWith (overwriting more) n.children) (n :: around)
      n.children := fun c hc =>
  ⟨builtChild_of_mem hns hc, fun s hs => hover s (Node.mem_sites.mpr (.inr ⟨c, hc, hs⟩))⟩

/-- What numbering gives, with the numbered nodes written over. -/
def writtenOver {α : Type} (more : NodeId → List (String × Document))
    (r : (α × List Node) × NodeId) : (α × List Node) × NodeId :=
  ((r.1.1, r.1.2.map (·.overwrite more)), r.2)

/-- The value at a field after numbering, with its nodes rebuilt. -/
def rebuiltValue (field : Option Field) (built : List (NodeId × Document)) (d : Document) :
    Document := (field.getD (.data d)).rebuild built

/-- A value is rebuilt to one that numbering makes the same of from the same number on, with the
    nodes written over. -/
def Relowers (more : NodeId → List (String × Document)) (d : Document) : Prop :=
  ∀ role id built around, RebuiltOver more built around (numberVisit role (visitValue d) id).1.2 →
    numberVisit role
        (visitValue (rebuiltValue (numberVisit role (visitValue d) id).1.1 built d)) id =
      writtenOver more (numberVisit role (visitValue d) id)

theorem relowers_of_plain (h : visitValue d = .plain) : Relowers more d := by
  intro role id built around _
  rw [h]
  show numberVisit role (visitValue d) id = _
  rw [h]
  rfl

/-- A value that is numbered like a node is a node. -/
theorem exists_node_of_numberVisit {role : Role} {v : Visit} {u : Unnumbered} {id : NodeId}
    (h : numberVisit role v id = writtenOver more (numberVisit role (.node u) id)) :
    ∃ u', v = .node u' ∧ u' role id = ((u role id).1.overwrite more, (u role id).2) := by
  cases v with
  | node u' =>
    have hnodes := congrArg (fun r => r.1.2) h
    have hnext := congrArg (fun r => r.2) h
    exact ⟨u', rfl, Prod.ext (List.cons.inj hnodes).1 hnext⟩
  | list slots => cases congrArg (fun r => r.1.1) h
  | plain => cases congrArg (fun r => r.1.1) h

theorem numberVisit_node {role : Role} {u u' : Unnumbered} {id : NodeId}
    (h : u' role id = ((u role id).1.overwrite more, (u role id).2)) :
    numberVisit role (.node u') id = writtenOver more (numberVisit role (.node u) id) := by
  simp only [numberVisit, h, Node.id_overwrite, writtenOver, List.map_cons, List.map_nil]

theorem visitItems_cons_of_node {item : Document} {u : Unnumbered} (h : visitValue item = .node u)
    (items : List Document) :
    visitItems (item :: items) = (visitItems items).map (some u :: ·) := by
  cases item with
  | null => cases h
  | _ => simp only [visitItems, h]

/-- The items of a visited list are numbered one by one again. -/
theorem relowers_items {items : List Document} (hitems : ∀ d ∈ items, Relowers more d)
    {slots : List (Option Unnumbered)} (hslots : visitItems items = some slots) {role : Role}
    {built : List (NodeId × Document)} {around : List Node} {id : NodeId}
    (hbuilt : RebuiltOver more built around (numberSlots role slots id).1.2) :
    ∃ items' slots', (Field.list (numberSlots role slots id).1.1).rebuild built = .array items' ∧
      visitItems items' = some slots' ∧
      numberSlots role slots' id = writtenOver more (numberSlots role slots id) := by
  induction items generalizing slots id with
  | nil =>
    cases hslots
    exact ⟨[], [], rfl, rfl, rfl⟩
  | cons item items ih =>
    rw [List.forall_mem_cons] at hitems
    simp only [visitItems] at hslots
    split at hslots
    · obtain ⟨slots, hslots', rfl⟩ := Option.map_eq_some_iff.mp hslots
      rw [numberSlots] at hbuilt
      obtain ⟨items', slots', hrebuild, hvisit, hnumber⟩ := ih hitems.2 hslots' hbuilt
      obtain rfl := Document.array.inj hrebuild
      refine ⟨_, none :: slots', rfl, ?_, ?_⟩
      · show (visitItems _).map (none :: ·) = _
        rw [hvisit]
        rfl
      · rw [numberSlots, hnumber]
        rfl
    · next u _ hvisit =>
      obtain ⟨slots, hslots', rfl⟩ := Option.map_eq_some_iff.mp hslots
      obtain ⟨hfirst, hrest⟩ := List.forall_mem_cons.mp hbuilt
      obtain ⟨items', slots', hrebuild, hvisits, hnumber⟩ := ih hitems.2 hslots' hrest
      obtain rfl := Document.array.inj hrebuild
      have hitem := hitems.1 role id built around
      rw [hvisit] at hitem
      obtain ⟨u', hvisit', hnode⟩ :=
        exists_node_of_numberVisit (hitem (List.forall_mem_singleton.mpr hfirst))
      refine ⟨_, some u' :: slots', rfl, ?_, ?_⟩
      · exact (visitItems_cons_of_node hvisit' _).trans (by rw [hvisits]; rfl)
      · simp only [numberSlots, hnode, hnumber, writtenOver, Node.id_overwrite, List.map_cons]
    · cases hslots

theorem mem_of_fieldValue? {key : String} {fields : List (String × Document)} {v : Document}
    (h : Document.fieldValue? key fields = some v) : (key, v) ∈ fields := by
  induction fields with
  | nil => cases h
  | cons e fields ih =>
    obtain ⟨k, u⟩ := e
    rw [Document.fieldValue?] at h
    split at h
    · next hk =>
      subst hk
      rw [Option.some_inj.mp h]
      exact List.mem_cons_self
    · exact List.mem_cons_of_mem _ (ih h)

/-- The field at the first key of a plan and those at its other keys. -/
theorem fieldValue?_cons (field : Option Field) {key key' : String}
    {rest : List (String × Field)} (hrest : Node.fieldValue? key rest = none) :
    Node.fieldValue? key' (field.toList.map (fun f => (key, f)) ++ rest) =
      if key' = key then field else Node.fieldValue? key' rest := by
  cases field with
  | none =>
    show Node.fieldValue? key' rest = _
    split
    · next h => rw [h, hrest]
    · rfl
  | some f =>
    show (if key = key' then some f else Node.fieldValue? key' rest) = _
    simp only [eq_comm (a := key)]

/-- A plan is run again, with the values of its fields rebuilt in between. -/
theorem numberPlan_rebuilt {fields : List (String × Document)}
    (hfields : ∀ e ∈ fields, Relowers more e.2) {visited : List (String × Field)}
    {visits : List (String × Visit)} {built : List (NodeId × Document)} {around : List Node}
    {plan : List (String × Role)} (hplan : (plan.map (·.1)).Nodup) {next : NodeId}
    (hvisited : ∀ key ∈ plan.map (·.1), Node.fieldValue? key visited =
      Node.fieldValue? key (numberPlan (visitFields fields) plan next).1.1)
    (hbuilt : RebuiltOver more built around (numberPlan (visitFields fields) plan next).1.2)
    (hvisits : ∀ key ∈ plan.map (·.1), visitOf? key visits =
      (Document.fieldValue? key fields).map fun v =>
        visitValue (rebuiltValue (Node.fieldValue? key visited) built v)) :
    numberPlan visits plan next = writtenOver more (numberPlan (visitFields fields) plan next) := by
  induction plan generalizing next with
  | nil => rfl
  | cons e plan ih =>
    obtain ⟨key, role⟩ := e
    obtain ⟨hnot, hplan⟩ := List.nodup_cons.mp hplan
    have hkey := hvisits key List.mem_cons_self
    have hold := visitOf?_visitFields key fields
    cases hv : Document.fieldValue? key fields with
    | none =>
      rw [hv, Option.map_none] at hkey hold
      rw [numberPlan_cons_of_none hold] at hvisited hbuilt ⊢
      rw [numberPlan_cons_of_none hkey]
      exact ih hplan (fun k hk => hvisited k (List.mem_cons_of_mem _ hk)) hbuilt
        fun k hk => hvisits k (List.mem_cons_of_mem _ hk)
    | some v =>
      rw [hv, Option.map_some] at hkey hold
      rw [numberPlan_cons hold] at hvisited hbuilt ⊢
      have hnone := fieldValue?_numberPlan_of_notMem (visitFields fields) hnot
        (numberVisit role (visitValue v) next).2
      have hfield : Node.fieldValue? key visited =
          (numberVisit role (visitValue v) next).1.1 := by
        rw [hvisited key List.mem_cons_self, fieldValue?_cons _ hnone, if_pos rfl]
      have hfirst := hfields _ (mem_of_fieldValue? hv) role next built around
        fun n hn => hbuilt n (List.mem_append_left _ hn)
      rw [← hfield] at hfirst
      rw [numberPlan_cons hkey, hfirst]
      have hrest : numberPlan visits plan (numberVisit role (visitValue v) next).2 = _ :=
        ih hplan
          (fun k hk => by
            have hne : k ≠ key := fun h => hnot (h ▸ hk)
            rw [hvisited k (List.mem_cons_of_mem _ hk), fieldValue?_cons _ hnone, if_neg hne])
          (fun n hn => hbuilt n (List.mem_append_right _ hn))
          fun k hk => hvisits k (List.mem_cons_of_mem _ hk)
      simp only [writtenOver] at hrest ⊢
      rw [hrest, List.map_append]

/-! ## Nodes -/

section

variable {kind : Kind} {fields : List (String × Document)} {visited : List (String × Field)}
  {built : List (NodeId × Document)} {around : List Node} {id : NodeId}

/-- The fields of a rebuilt node with others written over them. -/
def overwrittenFields (new : List (String × Document)) (visited : List (String × Field))
    (built : List (NodeId × Document)) (fields : List (String × Document)) :
    List (String × Document) := Table.writeAll new (rebuiltFields visited built fields)

theorem rebuiltFields_eq :
    rebuiltFields visited built fields =
      fields.map fun e => (e.1, rebuiltValue (Node.fieldValue? e.1 visited) built e.2) := rfl

theorem documentFieldValue?_eq_lookup (key : String) (fields : List (String × Document)) :
    Document.fieldValue? key fields = Table.lookup key fields := by
  induction fields with
  | nil => rfl
  | cons e fields ih => rw [Document.fieldValue?, Table.lookup, ih]

theorem fieldValue?_overwrittenFields {new : List (String × Document)} {key : String}
    (h : key ∉ new.map (·.1)) :
    Document.fieldValue? key (overwrittenFields new visited built fields) =
      (Document.fieldValue? key fields).map
        (rebuiltValue (Node.fieldValue? key visited) built) := by
  rw [documentFieldValue?_eq_lookup, overwrittenFields, Table.lookup_writeAll_of_notMem h,
    rebuiltFields_eq]
  induction fields with
  | nil => rfl
  | cons e fields ih =>
    rw [List.map_cons, Table.lookup, Document.fieldValue?]
    split
    · next hk => rw [hk]; rfl
    · exact ih

/-- A rebuilt value is the old one, or numbering makes a visited field of both. -/
theorem rebuiltValue_eq_or (hkeys : (fields.map (·.1)).Nodup)
    (hfields : ∀ e ∈ fields, Relowers more e.2) {plan : List (String × Role)} {next : NodeId}
    (hbuilt : RebuiltOver more built around (numberPlan (visitFields fields) plan next).1.2)
    {e : String × Document} (he : e ∈ fields) {value : Document}
    (hvalue : value = rebuiltValue
      (Node.fieldValue? e.1 (numberPlan (visitFields fields) plan next).1.1) built e.2) :
    value = e.2 ∨ ∃ role id f, (numberVisit role (visitValue e.2) id).1.1 = some f ∧
      (numberVisit role (visitValue value) id).1.1 = some f := by
  cases hfield : Node.fieldValue? e.1 (numberPlan (visitFields fields) plan next).1.1 with
  | none =>
    rw [hfield] at hvalue
    exact .inl hvalue
  | some f =>
    have hplan : e.1 ∈ plan.map (·.1) := by
      by_contra hnot
      rw [fieldValue?_numberPlan_of_notMem _ hnot] at hfield
      cases hfield
    have hvisit : visitOf? e.1 (visitFields fields) = some (visitValue e.2) := by
      rw [visitOf?_visitFields, Document.fieldValue?_of_mem hkeys he, Option.map_some]
    obtain ⟨role, id, hnumbered, hnodes⟩ := exists_numberVisit hvisit hplan next
    have hagain := hfields e he role id built around fun n hn => hbuilt n (hnodes n hn)
    rw [← hnumbered, ← hvalue] at hagain
    rw [hfield] at hnumbered
    exact .inr ⟨role, id, f, hnumbered.symm, by rw [hagain]; exact hnumbered.symm⟩

/-- A value that is not visited is rebuilt to itself, and no other value is rebuilt to it. -/
theorem rebuiltValue_eq_iff (hkeys : (fields.map (·.1)).Nodup)
    (hfields : ∀ e ∈ fields, Relowers more e.2) {plan : List (String × Role)} {next : NodeId}
    (hbuilt : RebuiltOver more built around (numberPlan (visitFields fields) plan next).1.2)
    {e : String × Document} (he : e ∈ fields) {leaf : Document} (hleaf : visitValue leaf = .plain) :
    rebuiltValue (Node.fieldValue? e.1 (numberPlan (visitFields fields) plan next).1.1) built e.2 =
      leaf ↔ e.2 = leaf := by
  obtain heq | ⟨role, id, f, hold, hnew⟩ := rebuiltValue_eq_or hkeys hfields hbuilt he rfl
  · rw [heq]
  · constructor
    · intro h
      rw [h, hleaf] at hnew
      cases hnew
    · intro h
      rw [h, hleaf] at hold
      cases hold

/-- A rebuilt value is visited where the old one is. -/
theorem visitedAnyway_rebuiltValue (hkeys : (fields.map (·.1)).Nodup)
    (hfields : ∀ e ∈ fields, Relowers more e.2) {plan : List (String × Role)} {next : NodeId}
    (hbuilt : RebuiltOver more built around (numberPlan (visitFields fields) plan next).1.2)
    {e : String × Document} (he : e ∈ fields) :
    visitedAnyway e.1 (visitValue (rebuiltValue
        (Node.fieldValue? e.1 (numberPlan (visitFields fields) plan next).1.1) built e.2)) =
      visitedAnyway e.1 (visitValue e.2) := by
  obtain heq | ⟨role, id, f, hold, hnew⟩ := rebuiltValue_eq_or hkeys hfields hbuilt he rfl
  · rw [heq]
  · rw [visitedAnyway_eq e.1 role _ id, visitedAnyway_eq e.1 role (visitValue e.2) id, hold, hnew]

/-- A value that is not visited is found at the same keys, apart from those that are written. -/
theorem fieldValue?_overwrittenFields_iff (hkeys : (fields.map (·.1)).Nodup)
    (hfields : ∀ e ∈ fields, Relowers more e.2) {plan : List (String × Role)} {next : NodeId}
    (hbuilt : RebuiltOver more built around (numberPlan (visitFields fields) plan next).1.2)
    {new : List (String × Document)} {key : String} (hnew : key ∉ new.map (·.1)) {leaf : Document}
    (hleaf : visitValue leaf = .plain) :
    Document.fieldValue? key (overwrittenFields new
        (numberPlan (visitFields fields) plan next).1.1 built fields) = some leaf ↔
      Document.fieldValue? key fields = some leaf := by
  rw [fieldValue?_overwrittenFields hnew]
  cases hv : Document.fieldValue? key fields with
  | none => rfl
  | some v =>
    rw [Option.map_some, Option.some_inj, Option.some_inj]
    exact rebuiltValue_eq_iff hkeys hfields hbuilt (mem_of_fieldValue? hv) hleaf

theorem genericRole_congr {fields fields' : List (String × Document)}
    (h : ∀ b, Document.fieldValue? "computed" fields' = some (.boolean b) ↔
      Document.fieldValue? "computed" fields = some (.boolean b)) (key : String) :
    genericRole fields' key = genericRole fields key := by
  unfold genericRole
  split
  · next b hb => rw [(h b).mp hb]
  · next hnone =>
    split
    · next b hb => exact absurd ((h b).mpr hb) (hnone b)
    · rfl

/-- The visited fields of an object, numbered in the order of its kind. -/
abbrev numberFields (kind : Kind) (fields : List (String × Document)) :
    Numbering (List (String × Field) × List Node) :=
  numberPlan (visitFields fields) (visitPlan kind fields (visitFields fields))

/-- The plan of a node is the same after rebuilding and writing. -/
theorem visitPlan_overwrittenFields (hkeys : (fields.map (·.1)).Nodup)
    (hfields : ∀ e ∈ fields, Relowers more e.2) {new : List (String × Document)}
    (hnew : ∀ key ∈ new.map (·.1), kind.Ignores key) {next : NodeId}
    (hbuilt : RebuiltOver more built around (numberFields kind fields next).1.2) :
    let fields' := overwrittenFields new (numberFields kind fields next).1.1 built fields
    visitPlan kind fields' (visitFields fields') =
      visitPlan kind fields (visitFields fields) := by
  intro fields'
  cases hplan : fixedPlan? kind with
  | some plan => rw [visitPlan_of_fixed hplan, visitPlan_of_fixed hplan]
  | none =>
    have hskipped : ∀ key ∈ new.map (·.1), key ∈ skippedKeys := fun key hkey => by
      have hignores := (hnew key hkey).2
      rwa [hplan] at hignores
    have hcomputed : "computed" ∉ new.map (·.1) := fun h => absurd (hskipped _ h) (by decide)
    have hrole : ∀ key, genericRole fields' key = genericRole fields key :=
      genericRole_congr fun b =>
        fieldValue?_overwrittenFields_iff hkeys hfields hbuilt hcomputed rfl
    have hwritten : ∀ e ∈ new, ∀ v, (if visitedAnyway e.1 (visitValue v) then
        some (e.1, genericRole fields' e.1) else none) = none := by
      intro e he v
      rw [visitedAnyway_of_mem_skippedKeys (hskipped e.1 (List.mem_map_of_mem he))]
      rfl
    rw [visitPlan_of_generic hplan fields', visitPlan_of_generic hplan fields]
    show (Table.writeAll new (rebuiltFields _ built fields)).filterMap _ = _
    rw [Table.filterMap_writeAll hwritten, rebuiltFields_eq, List.filterMap_map]
    refine List.filterMap_congr fun e he => ?_
    rw [Function.comp_apply, visitedAnyway_rebuiltValue hkeys hfields hbuilt he, hrole]

end

theorem visitValue_of_type {tag : String} {fields : List (String × Document)}
    (htype : Document.fieldValue? "type" fields = some (.string tag)) :
    visitValue (.object fields) =
      .node (numberNode (.ofTag tag) fields (visitFields fields)) := by
  simp only [visitValue, htype]

/-- What the fields of a node become is the same after rebuilding, with what is written kept as it
    is. -/
theorem numberedFields_overwrittenFields {new fields : List (String × Document)}
    {visited : List (String × Field)} (built : List (NodeId × Document))
    (hnew : ∀ e ∈ new, Node.fieldValue? e.1 visited = none) :
    (overwrittenFields new visited built fields).map
        (fun e => (e.1, (Node.fieldValue? e.1 visited).getD (.data e.2))) =
      Table.writeAll (new.map fun e => (e.1, .data e.2))
        (fields.map fun e => (e.1, (Node.fieldValue? e.1 visited).getD (.data e.2))) := by
  have hdata : new.map (fun e => (e.1, (Node.fieldValue? e.1 visited).getD (.data e.2))) =
      new.map fun e => (e.1, .data e.2) :=
    List.map_congr_left fun e he => by rw [hnew e he, Option.getD_none]
  rw [overwrittenFields,
    Table.map_writeAll fun key v => (Node.fieldValue? key visited).getD (.data v), hdata,
    rebuiltFields_eq, List.map_map]
  congr 1
  refine List.map_congr_left fun e _ => ?_
  rw [Function.comp_apply]
  cases Node.fieldValue? e.1 visited with
  | none => rfl
  | some f => rfl

/-- The object of a numbered node, rebuilt and written over, is numbered to the node written
    over. -/
theorem numberNode_overwrittenFields {kind : Kind} {fields : List (String × Document)}
    (hkeys : (fields.map (·.1)).Nodup) (hfields : ∀ e ∈ fields, Relowers more e.2) {id : NodeId}
    (hnew : ∀ key ∈ (more id).map (·.1), kind.Ignores key)
    {built : List (NodeId × Document)} {around : List Node}
    (hbuilt : RebuiltOver more built around (numberFields kind fields (id + 1)).1.2) (role : Role) :
    let fields' := overwrittenFields (more id) (numberFields kind fields (id + 1)).1.1 built fields
    numberNode kind fields' (visitFields fields') role id =
      ((numberNode kind fields (visitFields fields) role id).1.overwrite more,
        (numberNode kind fields (visitFields fields) role id).2) := by
  intro fields'
  have hplan := visitPlan_overwrittenFields hkeys hfields hnew hbuilt
  have hnumbered : numberPlan (visitFields fields')
      (visitPlan kind fields (visitFields fields)) (id + 1) =
        writtenOver more (numberFields kind fields (id + 1)) := by
    refine numberPlan_rebuilt hfields (nodup_visitPlan hkeys) (fun _ _ => rfl) hbuilt ?_
    intro key hkey
    have hnot : key ∉ (more id).map (·.1) := fun h => (hnew key h).notMem_visitPlan fields hkey
    rw [visitOf?_visitFields, fieldValue?_overwrittenFields hnot, Option.map_map]
    rfl
  have hwritten : ∀ e ∈ more id, Node.fieldValue? e.1 (numberFields kind fields (id + 1)).1.1 =
      none := fun e he => fieldValue?_numberPlan_of_notMem _
    ((hnew e.1 (List.mem_map_of_mem he)).notMem_visitPlan fields) _
  have hmap : fields'.map _ = _ := numberedFields_overwrittenFields built hwritten
  rw [Node.overwrite_eq]
  simp only [numberNode]
  rw [hplan, hnumbered]
  exact Prod.ext (congrArg (Node.mk id kind role · _) hmap) rfl

/-- A node is relowered when its fields are. -/
theorem relowers_node {tag : String} {fields : List (String × Document)}
    (htype : Document.fieldValue? "type" fields = some (.string tag))
    (hkeys : (fields.map (·.1)).Nodup) (hfields : ∀ e ∈ fields, Relowers more e.2) :
    Relowers more (.object fields) := by
  intro role id built around hbuilt
  rw [visitValue_of_type htype] at hbuilt ⊢
  obtain ⟨hchild, hover⟩ := List.forall_mem_singleton.mp hbuilt
  have hnew : ∀ key ∈ (more id).map (·.1), (Kind.ofTag tag).Ignores key :=
    hover _ (Node.self_mem_sites _ around)
  have hnumbered :=
    numberPlan_sound (visitFields_sound carries_bodyListed fields fun _ _ => trivial)
      (visitPlan (.ofTag tag) fields (visitFields fields)) (id + 1)
  have hchildren : RebuiltOver more
      (Node.rebuildAllWith (overwriting more) (numberFields (.ofTag tag) fields (id + 1)).1.2) _
      (numberFields (.ofTag tag) fields (id + 1)).1.2 :=
    rebuiltOver_children hnumbered.1.nodup hover
  have hrebuilt := hchild.trans rebuildWith_numberNode
  have hvisit := visitValue_of_type ((fieldValue?_overwrittenFields_iff hkeys hfields hchildren
    (fun h => (hnew "type" h).1 rfl) rfl).mpr htype)
  show numberVisit role (visitValue (builtChild built _)) id = _
  rw [hrebuilt]
  refine (congrArg (numberVisit role · id) hvisit).trans ?_
  exact numberVisit_node (numberNode_overwrittenFields hkeys hfields hnew hchildren role)

/-- With distinct keys, every value is relowered. -/
theorem relowers (hkeys : d.KeysDistinct) : Relowers more d := by
  induction hkeys with
  | null => exact relowers_of_plain rfl
  | boolean => exact relowers_of_plain rfl
  | number => exact relowers_of_plain rfl
  | string => exact relowers_of_plain rfl
  | @array items _ ih =>
    cases hslots : visitItems items with
    | none => exact relowers_of_plain (by simp [visitValue, hslots])
    | some slots =>
      have hvisit : visitValue (.array items) = .list slots := by simp [visitValue, hslots]
      intro role id built around hbuilt
      rw [hvisit] at hbuilt ⊢
      obtain ⟨items', slots', hrebuild, hslots', hnumber⟩ := relowers_items ih hslots hbuilt
      have hvisit' : visitValue (.array items') = .list slots' := by simp [visitValue, hslots']
      rw [rebuiltValue]
      simp only [numberVisit, Option.getD_some, hrebuild, hvisit', hnumber]
      rfl
  | @object fields hown _ ih =>
    rcases visitValue_object fields with ⟨tag, htype, hvisit⟩ | hplain
    · exact relowers_node htype hown ih
    · exact relowers_of_plain hplain

/-- With distinct keys, and when nothing that is written into the nodes of its tree matters to
    lowering, a document is lowered after the writing to the same tree with the writing in it. -/
theorem Tree.ofDocument_overwritten {t : Tree} (ht : Tree.ofDocument d = .ok t)
    (hkeys : d.KeysDistinct) (hover : ∀ s ∈ t.sites, Overlooks more s.1) :
    Tree.ofDocument (t.toDocumentWith (overwriting more)) = .ok (t.overwrite more) := by
  unfold Tree.ofDocument at ht
  split at ht
  · next u hvisit =>
    cases ht
    have hchild : builtChild (Node.rebuildAllWith (overwriting more) [(u .reference 0).1])
        (u .reference 0).1.id = (u .reference 0).1.rebuildWith (overwriting more) :=
      builtChild_of_mem (by simp) (List.mem_singleton_self _)
    have hrelowers : Relowers more d := relowers hkeys
    have hroot := hrelowers .reference 0
      (Node.rebuildAllWith (overwriting more) [(u .reference 0).1]) []
    rw [hvisit] at hroot
    obtain ⟨u', hvisit', hnode⟩ := exists_node_of_numberVisit
      (hroot (List.forall_mem_singleton.mpr ⟨hchild, hover⟩))
    have hdocument : visitValue ((u .reference 0).1.rebuildWith (overwriting more)) = .node u' :=
      hchild ▸ hvisit'
    rw [Tree.toDocumentWith, Tree.ofDocument, hdocument]
    dsimp only
    rw [hnode]
    rfl
  · cases ht

end ScriptSandbox.Syntax
