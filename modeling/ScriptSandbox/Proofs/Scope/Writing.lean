import ScriptSandbox.Proofs.Scope.Binding
import ScriptSandbox.Proofs.Scope.Labeling
import ScriptSandbox.Proofs.Syntax.RoundTrip
import ScriptSandbox.Scope.Writing

/-
  What annotating a document changes.

  A key that is new to an object is written behind its fields; a key that is there already is
  written over. The annotations of a node have keys of their own (`annotationKeys`), so where no
  node carries these keys an annotated document is the document with fields added to its nodes
  (`annotations_added`). The key `label` is the exception: labeled statements and jumps carry it on
  their own account, but it is written only on the body of a labeled statement
  (`label?_annotate`). A jump that is itself such a body loses its target
  (`jump_target_overwritten`).
-/

namespace ScriptSandbox

/-! ## Writing new keys -/

namespace Table

variable {α : Type}

theorem write_new {name : String} {es : List (String × α)} (h : name ∉ es.map (·.1)) (v : α) :
    write name v es = es ++ [(name, v)] := by
  induction es with
  | nil => rfl
  | cons e es ih =>
    rw [List.map_cons, List.mem_cons, not_or] at h
    rw [write, if_neg (Ne.symm h.1), ih h.2, List.cons_append]

theorem foldl_write_new {es new : List (String × α)} (hnew : (new.map (·.1)).Nodup)
    (h : ∀ e ∈ new, e.1 ∉ es.map (·.1)) :
    new.foldl (fun es e => write e.1 e.2 es) es = es ++ new := by
  induction new generalizing es with
  | nil => rw [List.append_nil, List.foldl_nil]
  | cons e new ih =>
    obtain ⟨hnot, hnew⟩ := List.nodup_cons.mp hnew
    obtain ⟨he, h⟩ := List.forall_mem_cons.mp h
    rw [List.foldl_cons, write_new he, ih hnew ?_, List.append_assoc, List.singleton_append]
    intro e' he' hmem
    rw [List.map_append, List.mem_append] at hmem
    rcases hmem with hmem | hmem
    · exact h e' he' hmem
    · rw [List.map_singleton, List.mem_singleton] at hmem
      exact hnot (List.mem_map.mpr ⟨e', he', hmem⟩)

end Table

namespace Scope

open Syntax

/-! ## The keys of annotations -/

/-- The keys under which annotations are written, in the order in which they are written. -/
def annotationKeys : List String :=
  ["nodeId", "srcName", "strict", "label", "vars", "funcs", "lexicals", "upvars", "freevars"]

/-- Fields added to a node that has fields with these keys: they are annotations, and none of them
    takes a key of the node. -/
structure AddsAnnotations (keys : List String) (more : List (String × Document)) : Prop where
  annotations : (more.map (·.1)).Sublist annotationKeys
  apart : ∀ e ∈ more, e.1 ∉ keys

/-- The keys of the annotations of a node, with `label` only where the table has a label. -/
theorem keys_annotations (t : ScopeTable) (id : NodeId) :
    ((t.annotations id).map (·.1)).Sublist (["nodeId", "srcName", "strict"] ++
      ((t.label? id).toList.map fun _ => "label") ++
      ["vars", "funcs", "lexicals", "upvars", "freevars"]) := by
  unfold ScopeTable.annotations
  refine List.Sublist.cons_cons _ ?_
  split
  · exact List.nil_sublist _
  · next info hinfo =>
    have hsrcName : ((info.srcName.toList.map fun s => ("srcName", Document.string s)).map
        (·.1)).Sublist ["srcName"] := by cases info.srcName <;> simp
    have hstrict : ((if info.strict then [("strict", Document.boolean true)] else []).map
        (·.1)).Sublist ["strict"] := by split <;> simp
    have hlabel : (info.label.toList.map fun s => ("label", Document.string s)).map (·.1) =
        (t.label? id).toList.map fun _ => "label" := by
      rw [ScopeTable.label?, hinfo, List.map_map]
      rfl
    simp only [List.map_append, hlabel]
    refine (((hsrcName.append hstrict).append (.refl _)).append ?_)
    split <;> simp

theorem annotations_sublist (t : ScopeTable) (id : NodeId) :
    ((t.annotations id).map (·.1)).Sublist annotationKeys := by
  refine (keys_annotations t id).trans ?_
  cases t.label? id with
  | none => exact List.Sublist.append (.refl _) (List.sublist_cons_self "label" _)
  | some label => exact .refl _

/-- A node is annotated with a label where the table has one. -/
theorem label?_of_mem_annotations {t : ScopeTable} {id : NodeId}
    (h : "label" ∈ (t.annotations id).map (·.1)) : ∃ label, t.label? id = some label := by
  have hkeys := (keys_annotations t id).subset h
  cases hlabel : t.label? id with
  | none => simp [hlabel] at hkeys
  | some label => exact ⟨label, rfl⟩

/-! ## Annotated documents -/

variable {d : Document} {t : Tree}

theorem fieldValue?_eq_none_iff {key : String} {fields : List (String × Field)} :
    Node.fieldValue? key fields = none ↔ key ∉ fields.map (·.1) := by
  induction fields with
  | nil => simp [Node.fieldValue?]
  | cons e fields ih =>
    obtain ⟨k, f⟩ := e
    by_cases h : k = key
    · simp [Node.fieldValue?, h]
    · simp [Node.fieldValue?, h, ih, Ne.symm h]

/-- Decorating a node with annotations of which it has no key appends them. -/
theorem appends_annotations {table : ScopeTable} {n : Node}
    (h : ∀ key ∈ (table.annotations n.id).map (·.1), n.field? key = none) :
    Appends table.decorate AddsAnnotations n := by
  intro fields hfields
  have happart : ∀ e ∈ table.annotations n.id, e.1 ∉ n.fields.map (·.1) := fun e he =>
    fieldValue?_eq_none_iff.mp (h e.1 (List.mem_map_of_mem he))
  have hkeys := annotations_sublist table n.id
  refine ⟨table.annotations n.id, ?_, hkeys, happart⟩
  exact Table.foldl_write_new (hkeys.nodup (by decide)) (hfields ▸ happart)

/-- No node carries a key of the annotations, labels apart. -/
def Unannotated (t : Tree) : Prop :=
  ∀ n path, (n, path) ∈ t.sites → ∀ key ∈ annotationKeys, key ≠ "label" → n.field? key = none

/-- Where no node carries a key of the annotations, labels apart, and no body that is given a label
    carries one itself, annotating only adds: the nodes of the document keep their fields, in their
    order and with their values, and have annotations behind them. -/
theorem annotations_added (ht : Tree.ofDocument d = .ok t) (hkeys : d.KeysDistinct)
    (hclean : Unannotated t)
    (hbody : ∀ n path, (n, path) ∈ t.sites → n.bodyLabel? ≠ none →
      ∀ body, n.child? "body" = some body → body.field? "label" = none) :
    ∃ d', annotateDocument d = .ok (d', annotate true t) ∧ Extends AddsAnnotations d d' := by
  refine ⟨t.toDocumentWith (annotate true t).decorate, by rw [annotateDocument, ht]; rfl, ?_⟩
  refine Tree.extends_toDocumentWith ht hkeys fun (n, path) hn => appends_annotations ?_
  intro key hkey
  by_cases hlabel : key = "label"
  · subst hlabel
    obtain ⟨label, hlabel⟩ := label?_of_mem_annotations hkey
    obtain ⟨m, above, hm, hl⟩ := (label?_annotate true ht n.id label).mp hlabel
    obtain ⟨-, -, body, hb, he⟩ := Node.bodyLabel?_eq_some.mp hl
    have hsite := Tree.site_unique ht (Tree.mem_sites_cons.mpr ⟨hm, Node.child?_mem hb⟩) hn he
    cases hsite
    exact hbody m above hm (by rw [hl]; exact Option.some_ne_none _) n hb
  · exact hclean n path hn key ((annotations_sublist _ _).subset hkey) hlabel

/-! ## Labeled statements -/

def labeledDocument (label : String) (body : Document) : Document :=
  syntaxDocument "LabeledStatement" [("label", identifierDocument label), ("body", body)]

def breakDocument (label : String) : Document :=
  syntaxDocument "BreakStatement" [("label", identifierDocument label)]

/-- `a: while (x) { break a; }` -/
def labeledLoop : Document :=
  syntaxDocument "Program" [("body", .array [
    labeledDocument "a" (syntaxDocument "WhileStatement" [
      ("test", identifierDocument "x"), ("body", blockDocument [breakDocument "a"])])])]

theorem annotations_added_labeledLoop :
    ∃ d', annotateDocument labeledLoop = .ok (d', annotate true (treeOf labeledLoop)) ∧
      Extends AddsAnnotations labeledLoop d' := by
  have hkeys : labeledLoop.KeysDistinct := by
    simp [labeledLoop, labeledDocument, breakDocument, blockDocument, identifierDocument,
      syntaxDocument]
  have hclean : ∀ s ∈ (treeOf labeledLoop).sites, ∀ key ∈ annotationKeys, key ≠ "label" →
      s.1.field? key = none := by decide
  have hbody : ∀ s ∈ (treeOf labeledLoop).sites, s.1.bodyLabel? ≠ none →
      ∀ body ∈ s.1.child? "body", body.field? "label" = none := by decide
  exact annotations_added rfl hkeys (fun n path hn => hclean (n, path) hn)
    fun n path hn => hbody (n, path) hn

/-- `a: break a;` -/
def labeledJump : Document :=
  syntaxDocument "Program" [("body", .array [labeledDocument "a" (breakDocument "a")])]

/-- The target of the jump that is the body of the first statement. -/
def jumpTarget? (d : Document) : Option Document := do
  let items ← (← d.get? "body").array?
  let jump ← (← items.head?).get? "body"
  jump.get? "label"

theorem jumpTarget?_of_extends {d' : Document} (h : Extends AddsAnnotations labeledJump d') :
    ∃ target, jumpTarget? d' = some target ∧ target.string? = none := by
  obtain ⟨_, hbody, hvisited, -⟩ := h.get? rfl "body" rfl
  obtain ⟨_, rfl, hitems⟩ := (hvisited (by decide)).items rfl
  obtain - | ⟨hstatement, -⟩ := hitems
  obtain ⟨_, hjump, hvisited, -⟩ := hstatement.get? rfl "body" rfl
  obtain ⟨target, htarget, hvisited, -⟩ := (hvisited (by decide)).get? rfl "label" rfl
  refine ⟨target, ?_, ?_⟩
  · simp [jumpTarget?, hbody, Document.array?, hjump, htarget]
  · cases hvisited (by decide) <;> rfl

/-- A jump that is the body of a labeled statement has its own field `label` written over: no node
    carries any other key of the annotations, yet the target of the jump is lost. -/
theorem jump_target_overwritten :
    labeledJump.KeysDistinct ∧ Tree.ofDocument labeledJump = .ok (treeOf labeledJump) ∧
      Unannotated (treeOf labeledJump) ∧
      (∀ n path, (n, path) ∈ (treeOf labeledJump).sites → n.field? "label" ≠ none →
        n.kind = .labeledStatement ∨ n.kind = .breakStatement) ∧
      ∃ d', annotateDocument labeledJump = .ok (d', annotate true (treeOf labeledJump)) ∧
        ¬ Extends AddsAnnotations labeledJump d' := by
  have hkeys : labeledJump.KeysDistinct := by
    simp [labeledJump, labeledDocument, breakDocument, identifierDocument, syntaxDocument]
  have hclean : ∀ s ∈ (treeOf labeledJump).sites, ∀ key ∈ annotationKeys, key ≠ "label" →
      s.1.field? key = none := by decide
  have hlabel : ∀ s ∈ (treeOf labeledJump).sites, s.1.field? "label" ≠ none →
      s.1.kind = .labeledStatement ∨ s.1.kind = .breakStatement := by decide
  let d' := (treeOf labeledJump).toDocumentWith (annotate true (treeOf labeledJump)).decorate
  have htarget : (jumpTarget? d').bind Document.string? = some "a" := by decide +kernel
  refine ⟨hkeys, rfl, fun n path hn => hclean (n, path) hn, fun n path hn => hlabel (n, path) hn,
    d', rfl, fun h => ?_⟩
  obtain ⟨target, htarget', hnone⟩ := jumpTarget?_of_extends h
  rw [htarget', Option.bind_some, hnone] at htarget
  cases htarget

end Scope

end ScriptSandbox
