import ScriptSandbox.Proofs.Syntax.RoundTrip

/-
  Trees that have been written over.

  Entries that are written into a table keep the positions of those that were there
  (`Table.writeAll`). `Node.overwrite` writes data fields into the nodes of a tree in this way, and
  `overwriting` writes them into the objects of its document. The overwritten tree is rebuilt to the
  same document as the tree itself (`Tree.toDocumentWith_overwrite`): what is written twice is
  written once.
-/

namespace ScriptSandbox

/-! ## Writing several entries -/

namespace Table

variable {α β : Type} {es new : List (String × α)} {name key : String}

/-- Write entries, one after the other. -/
def writeAll (new es : List (String × α)) : List (String × α) :=
  new.foldl (fun es e => write e.1 e.2 es) es

theorem lookup_writeAll_of_notMem (h : key ∉ new.map (·.1)) :
    lookup key (writeAll new es) = lookup key es := by
  induction new generalizing es with
  | nil => rfl
  | cons e new ih =>
    rw [List.map_cons, List.mem_cons, not_or] at h
    exact (ih h.2).trans (lookup_write_ne h.1 e.2 es)

theorem lookup_writeAll_of_mem (hnew : (new.map (·.1)).Nodup) {e : String × α} (he : e ∈ new) :
    lookup e.1 (writeAll new es) = some e.2 := by
  induction new generalizing es with
  | nil => cases he
  | cons e' new ih =>
    obtain ⟨hnot, hnew⟩ := List.nodup_cons.mp hnew
    rcases List.mem_cons.mp he with rfl | he
    · exact (lookup_writeAll_of_notMem hnot).trans (lookup_write_self e.1 e.2 es)
    · exact ih hnew he

theorem write_eq_self {v : α} (h : lookup name es = some v) : write name v es = es := by
  induction es with
  | nil => cases h
  | cons e es ih =>
    obtain ⟨n, u⟩ := e
    rw [lookup] at h
    rw [write]
    split at h
    · next hn =>
      rw [if_pos hn, Option.some_inj.mp h]
    · next hn => rw [if_neg hn, ih h]

theorem writeAll_eq_self (h : ∀ e ∈ new, lookup e.1 es = some e.2) : writeAll new es = es := by
  induction new with
  | nil => rfl
  | cons e new ih =>
    obtain ⟨he, h⟩ := List.forall_mem_cons.mp h
    rw [writeAll, List.foldl_cons, write_eq_self he]
    exact ih h

/-- Entries that have been written are written already. -/
theorem writeAll_writeAll (hnew : (new.map (·.1)).Nodup) :
    writeAll new (writeAll new es) = writeAll new es :=
  writeAll_eq_self fun _ he => lookup_writeAll_of_mem hnew he

theorem map_writeAll (f : String → α → β) (new es : List (String × α)) :
    (writeAll new es).map (fun e => (e.1, f e.1 e.2)) =
      writeAll (new.map fun e => (e.1, f e.1 e.2)) (es.map fun e => (e.1, f e.1 e.2)) := by
  have hwrite (name : String) (v : α) (es : List (String × α)) :
      (write name v es).map (fun e => (e.1, f e.1 e.2)) =
        write name (f name v) (es.map fun e => (e.1, f e.1 e.2)) := by
    induction es with
    | nil => rfl
    | cons e es ih =>
      obtain ⟨n, u⟩ := e
      rw [write, List.map_cons, write]
      split
      · next hn => rw [List.map_cons, hn]
      · rw [List.map_cons, ih]
  induction new generalizing es with
  | nil => rfl
  | cons e new ih =>
    rw [writeAll, List.foldl_cons, ← writeAll, ih, hwrite]
    rfl

theorem filterMap_writeAll {f : String × α → Option β} (h : ∀ e ∈ new, ∀ v, f (e.1, v) = none)
    (es : List (String × α)) : (writeAll new es).filterMap f = es.filterMap f := by
  have hwrite {name : String} (hname : ∀ v, f (name, v) = none) (v : α)
      (es : List (String × α)) : (write name v es).filterMap f = es.filterMap f := by
    induction es with
    | nil => rw [write, List.filterMap_cons_none (hname v)]
    | cons e es ih =>
      obtain ⟨n, u⟩ := e
      rw [write]
      split
      · next hn =>
        subst hn
        rw [List.filterMap_cons_none (hname v), List.filterMap_cons_none (hname u)]
      · rw [List.filterMap_cons, List.filterMap_cons, ih]
  induction new generalizing es with
  | nil => rfl
  | cons e new ih =>
    obtain ⟨he, h⟩ := List.forall_mem_cons.mp h
    exact (ih h _).trans (hwrite he e.2 es)

end Table

namespace Syntax

/-! ## Overwriting a tree -/

variable {more : NodeId → List (String × Document)}

mutual

/-- The node with data written over its fields or behind them, and so all nodes below it. -/
def Node.overwrite (more : NodeId → List (String × Document)) : Node → Node
  | ⟨id, kind, role, fields, children⟩ =>
    ⟨id, kind, role, Table.writeAll ((more id).map fun e => (e.1, .data e.2)) fields,
      Node.overwriteAll more children⟩

def Node.overwriteAll (more : NodeId → List (String × Document)) : List Node → List Node
  | [] => []
  | c :: rest => c.overwrite more :: Node.overwriteAll more rest

end

/-- The tree with data written into its nodes. -/
def Tree.overwrite (more : NodeId → List (String × Document)) (t : Tree) : Tree :=
  ⟨t.root.overwrite more, t.size⟩

/-- The decoration that writes data into the objects of a document. -/
def overwriting (more : NodeId → List (String × Document)) (id : NodeId)
    (fields : List (String × Document)) : List (String × Document) :=
  Table.writeAll (more id) fields

namespace Node

theorem overwriteAll_eq (more : NodeId → List (String × Document)) (ns : List Node) :
    overwriteAll more ns = ns.map (·.overwrite more) := by
  induction ns with
  | nil => rfl
  | cons n ns ih => rw [overwriteAll, ih, List.map_cons]

theorem overwrite_eq (more : NodeId → List (String × Document)) (n : Node) :
    n.overwrite more =
      ⟨n.id, n.kind, n.role, Table.writeAll ((more n.id).map fun e => (e.1, .data e.2)) n.fields,
        n.children.map (·.overwrite more)⟩ := by
  cases n
  rw [overwrite, overwriteAll_eq]

@[simp] theorem id_overwrite (n : Node) : (n.overwrite more).id = n.id := by rw [overwrite_eq]

@[simp] theorem kind_overwrite (n : Node) : (n.overwrite more).kind = n.kind := by
  rw [overwrite_eq]

@[simp] theorem role_overwrite (n : Node) : (n.overwrite more).role = n.role := by
  rw [overwrite_eq]

@[simp] theorem children_overwrite (n : Node) :
    (n.overwrite more).children = n.children.map (·.overwrite more) := by rw [overwrite_eq]

theorem rebuildAllWith_eq (decorate : NodeId → List (String × Document) → List (String × Document))
    (ns : List Node) :
    rebuildAllWith decorate ns = ns.map fun c => (c.id, c.rebuildWith decorate) := by
  induction ns with
  | nil => rfl
  | cons n ns ih => rw [rebuildAllWith, ih, List.map_cons]

/-- A node into which data has been written is rebuilt to the same document. -/
theorem rebuildWith_overwrite (hmore : ∀ id, ((more id).map (·.1)).Nodup) (n : Node) :
    (n.overwrite more).rebuildWith (overwriting more) = n.rebuildWith (overwriting more) := by
  induction n using induct with
  | step n ih =>
    have hbuilt : rebuildAllWith (overwriting more) (n.children.map (·.overwrite more)) =
        rebuildAllWith (overwriting more) n.children := by
      rw [rebuildAllWith_eq, rebuildAllWith_eq, List.map_map]
      refine List.map_congr_left fun c hc => ?_
      exact Prod.ext c.id_overwrite (ih c hc)
    have hdata (built : List (NodeId × Document)) (new : List (String × Document)) :
        (new.map fun e => (e.1, Field.data e.2)).map (fun e => (e.1, e.2.rebuild built)) = new := by
      rw [List.map_map]
      exact List.map_id _
    rw [rebuildWith_eq, overwrite_eq]
    dsimp only
    rw [hbuilt, Table.map_writeAll fun _ (f : Field) =>
        f.rebuild (rebuildAllWith (overwriting more) n.children),
      hdata, overwriting, Table.writeAll_writeAll (hmore n.id), rebuildWith_eq n, overwriting]

end Node

theorem Tree.toDocumentWith_overwrite (hmore : ∀ id, ((more id).map (·.1)).Nodup) (t : Tree) :
    (t.overwrite more).toDocumentWith (overwriting more) =
      t.toDocumentWith (overwriting more) := t.root.rebuildWith_overwrite hmore

end Syntax

end ScriptSandbox
