import ScriptSandbox.Proofs.Scope.Block
import ScriptSandbox.Proofs.Scope.Hoisting
import ScriptSandbox.Proofs.Scope.Writing
import ScriptSandbox.Proofs.Syntax.Overwriting

/-
  Annotating a tree that has been written over.

  The annotation of a tree reads no key under which annotations are written, but for the label of
  a labeled statement. So whatever stands under these keys, everything that a walk takes from a node
  is the same (`Unread`), and an overwritten tree has the same annotations as the tree itself
  (`annotate_overwrite`).
-/

namespace ScriptSandbox.Scope

open Syntax

variable {more : NodeId → List (String × Document)} {n p c : Node} {around : List Node}
  {key : String}

/-- What is written into the node is under keys of annotations, and it is no label of a labeled
    statement. -/
def Unread (more : NodeId → List (String × Document)) (n : Node) : Prop :=
  ∀ key ∈ (more n.id).map (·.1), key ∈ annotationKeys ∧ (n.kind = .labeledStatement → key ≠ "label")

/-- A key that the annotation of a node may look at. -/
def Reads (n : Node) (key : String) : Prop :=
  key ∉ annotationKeys ∨ key = "label" ∧ n.kind = .labeledStatement

/-! ## Reading a node -/

theorem fieldValue?_eq_lookup (key : String) (fields : List (String × Field)) :
    Node.fieldValue? key fields = Table.lookup key fields := by
  induction fields with
  | nil => rfl
  | cons e fields ih => rw [Node.fieldValue?, Table.lookup, ih]

theorem field?_overwrite (h : Unread more n) (hkey : Reads n key) :
    (n.overwrite more).field? key = n.field? key := by
  have hnot : key ∉ ((more n.id).map fun e => (e.1, Field.data e.2)).map (·.1) := by
    rw [List.map_map]
    intro hmem
    obtain ⟨hann, hlabel⟩ := h key hmem
    rcases hkey with hkey | ⟨hkey, hk⟩
    · exact hkey hann
    · exact hlabel hk hkey
  rw [Node.overwrite_eq, Node.field?, fieldValue?_eq_lookup, Table.lookup_writeAll_of_notMem hnot,
    ← fieldValue?_eq_lookup, Node.field?]

theorem data?_overwrite (h : Unread more n) (hkey : Reads n key) :
    (n.overwrite more).data? key = n.data? key := by
  rw [Node.data?, field?_overwrite h hkey, Node.data?]

theorem stringData?_overwrite (h : Unread more n) (hkey : Reads n key) :
    (n.overwrite more).stringData? key = n.stringData? key := by
  rw [Node.stringData?, data?_overwrite h hkey, Node.stringData?]

theorem isTrue_overwrite (h : Unread more n) (hkey : Reads n key) :
    (n.overwrite more).isTrue key = n.isTrue key := by
  rw [Node.isTrue, data?_overwrite h hkey, Node.isTrue]

theorem list?_overwrite (h : Unread more n) (hkey : Reads n key) :
    (n.overwrite more).list? key = n.list? key := by
  rw [Node.list?, field?_overwrite h hkey, Node.list?]

theorem childAt?_overwrite (n : Node) (id : NodeId) :
    (n.overwrite more).childAt? id = (n.childAt? id).map (·.overwrite more) := by
  rw [Node.childAt?, Node.children_overwrite, List.find?_map, Node.childAt?]
  simp only [Function.comp_def, Node.id_overwrite]

theorem child?_overwrite (h : Unread more n) (hkey : Reads n key) :
    (n.overwrite more).child? key = (n.child? key).map (·.overwrite more) := by
  rw [Node.child?, field?_overwrite h hkey, Node.child?]
  split
  · exact childAt?_overwrite n _
  · rfl

theorem listNodes_overwrite (h : Unread more n) (hkey : Reads n key) :
    (n.overwrite more).listNodes key = (n.listNodes key).map (·.overwrite more) := by
  rw [Node.listNodes, list?_overwrite h hkey, Node.listNodes, List.map_filterMap]
  refine List.filterMap_congr fun slot _ => ?_
  cases slot with
  | none => rfl
  | some id => exact childAt?_overwrite n id

/-! ## Declarations -/

theorem reads_of_notMem (h : key ∉ annotationKeys) : Reads n key := .inl h

theorem nameOf?_overwrite (h : Unread more n) : nameOf? (n.overwrite more) = nameOf? n := by
  rw [nameOf?, data?_overwrite h (reads_of_notMem (by decide)), nameOf?]

theorem fieldNames_overwrite (h : Unread more n) (hkey : Reads n key) :
    fieldNames (n.overwrite more) key = fieldNames n key := by
  rw [fieldNames, data?_overwrite h hkey, fieldNames]

/-- What is written into the parent of a node is unread. -/
def ParentUnread (more : NodeId → List (String × Document)) (parent : Option Node) : Prop :=
  ∀ p ∈ parent, Unread more p

theorem parentUnread_some (h : Unread more p) : ParentUnread more (some p) :=
  fun _ hp => Option.some_inj.mp hp ▸ h

theorem declaratorBinding_overwrite {parent : Option Node} (h : ParentUnread more parent) :
    declaratorBinding (parent.map (·.overwrite more)) = declaratorBinding parent := by
  cases parent with
  | none => rfl
  | some p =>
    simp only [Option.map_some, declaratorBinding, Node.kind_overwrite,
      stringData?_overwrite (h p rfl) (reads_of_notMem (show "kind" ∉ annotationKeys by decide))]

theorem declarations_overwrite {parent : Option Node} (hp : ParentUnread more parent)
    (h : Unread more n) :
    declarations (parent.map (·.overwrite more)) (n.overwrite more) = declarations parent n := by
  unfold declarations
  rw [Node.kind_overwrite, Node.id_overwrite, nameOf?_overwrite h,
    declaratorBinding_overwrite hp, fieldNames_overwrite h (reads_of_notMem (by decide)),
    fieldNames_overwrite h (reads_of_notMem (by decide))]

/-! ## Scans -/

/-- What is written into the node and into the nodes below it is unread. -/
def AllUnread (more : NodeId → List (String × Document)) (around : List Node) (n : Node) : Prop :=
  ∀ s ∈ n.sites around, Unread more s.1

namespace AllUnread

theorem self (h : AllUnread more around n) : Unread more n := h _ (Node.self_mem_sites n around)

theorem child (h : AllUnread more around n) (hc : c ∈ n.children) :
    AllUnread more (n :: around) c := fun s hs => h s (Node.mem_sites.mpr (.inr ⟨c, hc, hs⟩))

end AllUnread

theorem hoistedIn_eq (direct : Bool) (parent n : Node) :
    hoistedIn direct parent n =
      match n.kind with
      | .functionDeclaration => if direct then declarations (some parent) n else []
      | .functionExpression | .arrowFunctionExpression => []
      | _ => declarations (some parent) n ++ n.children.flatMap (hoistedIn false n) := by
  obtain ⟨id, kind, role, fields, children⟩ := n
  cases kind <;> simp only [hoistedIn, hoistedBelow_eq]

theorem hoistedIn_overwrite (direct : Bool) (hp : Unread more p) (h : AllUnread more around n) :
    hoistedIn direct (p.overwrite more) (n.overwrite more) = hoistedIn direct p n := by
  induction n using Node.induct generalizing direct p around with
  | step n ih =>
    have hdeclarations : declarations (some (p.overwrite more)) (n.overwrite more) =
        declarations (some p) n :=
      declarations_overwrite (parentUnread_some hp) h.self
    have hbelow : (n.overwrite more).children.flatMap (hoistedIn false (n.overwrite more)) =
        n.children.flatMap (hoistedIn false n) := by
      rw [Node.children_overwrite, List.flatMap_map]
      exact List.flatMap_congr fun c hc => ih c hc false h.self (h.child hc)
    rw [hoistedIn_eq, hoistedIn_eq, Node.kind_overwrite, hdeclarations, hbelow]

theorem lexicalNamesIn_overwrite (hp : Unread more p) (h : AllUnread more around n) :
    lexicalNamesIn (p.overwrite more) (n.overwrite more) = lexicalNamesIn p n := by
  induction n using Node.induct generalizing p around with
  | step n ih =>
    have hdeclarations : declarations (some (p.overwrite more)) (n.overwrite more) =
        declarations (some p) n :=
      declarations_overwrite (parentUnread_some hp) h.self
    have hbelow : (n.overwrite more).children.flatMap (lexicalNamesIn (n.overwrite more)) =
        n.children.flatMap (lexicalNamesIn n) := by
      rw [Node.children_overwrite, List.flatMap_map]
      exact List.flatMap_congr fun c hc => ih c hc h.self (h.child hc)
    rw [lexicalNamesIn_eq, lexicalNamesIn_eq, Node.kind_overwrite, hdeclarations, hbelow]

theorem blockNames_overwrite (h : AllUnread more around n) :
    blockNames (n.overwrite more) = blockNames n := by
  have hbelow : (n.overwrite more).children.flatMap (lexicalNamesIn (n.overwrite more)) =
      n.children.flatMap (lexicalNamesIn n) := by
    rw [Node.children_overwrite, List.flatMap_map]
    exact List.flatMap_congr fun c hc => lexicalNamesIn_overwrite h.self (h.child hc)
  rw [blockNames, lexicalNamesBelow_eq, hbelow, Node.kind_overwrite,
    fieldNames_overwrite h.self (reads_of_notMem (by decide)), blockNames, lexicalNamesBelow_eq]

/-! ## Contexts -/

theorem bodyBlock?_overwrite (h : Unread more n) :
    bodyBlock? (n.overwrite more) = (bodyBlock? n).map (·.overwrite more) := by
  unfold bodyBlock?
  rw [Node.kind_overwrite, child?_overwrite h (reads_of_notMem (by decide))]
  split
  · rfl
  · rw [Option.filter_map, Function.comp_def]
    simp only [Node.kind_overwrite]

theorem AllUnread.bodyBlock {b : Node} (h : AllUnread more around n)
    (hb : bodyBlock? n = some b) : ∃ around', AllUnread more around' b := by
  rcases bodyBlock?_eq_some hb with ⟨rfl, -⟩ | ⟨-, hchild, -⟩
  · exact ⟨around, h⟩
  · exact ⟨n :: around, h.child (Node.child?_mem hchild)⟩

theorem hoisted_overwrite (h : AllUnread more around n) :
    hoisted (n.overwrite more) = hoisted n := by
  unfold hoisted
  rw [bodyBlock?_overwrite h.self]
  cases hb : bodyBlock? n with
  | some block =>
    obtain ⟨around', hblock⟩ := h.bodyBlock hb
    show ((block.overwrite more).listNodes "body").flatMap (hoistedIn true (block.overwrite more)) =
      (block.listNodes "body").flatMap (hoistedIn true block)
    rw [listNodes_overwrite hblock.self (reads_of_notMem (by decide)), List.flatMap_map]
    exact List.flatMap_congr fun c hc =>
      hoistedIn_overwrite true hblock.self (hblock.child (Node.listNodes_mem hc))
  | none =>
    rw [Option.map_none]
    dsimp only
    rw [Node.kind_overwrite, child?_overwrite h.self (reads_of_notMem (by decide))]
    split
    · rfl
    · cases hc : n.child? "body" with
      | none => rfl
      | some c =>
        show hoistedIn true (n.overwrite more) (c.overwrite more) ++ [] = hoistedIn true n c ++ []
        rw [hoistedIn_overwrite true h.self (h.child (Node.child?_mem hc))]

/-- The first statement of a block, when it is a string on its own, says that it is strict. -/
def statementIsStrict (statement : Node) : Bool :=
  statement.kind = .expressionStatement &&
    match statement.child? "expression" with
    | some e => e.kind = .literal && e.stringData? "value" = some "use strict"
    | none => false

theorem isStrict_eq (n : Node) :
    isStrict n = ((bodyBlock? n).bind fun block =>
      (((block.list? "body").bind List.head?).join.bind block.childAt?)).any statementIsStrict := by
  unfold isStrict
  cases bodyBlock? n with
  | none => rfl
  | some block =>
    dsimp only [Option.bind_some]
    cases (block.list? "body").bind List.head? with
    | none => rfl
    | some slot =>
      cases slot with
      | none => rfl
      | some first =>
        dsimp only [Option.join_some, Option.bind_some]
        cases block.childAt? first with
        | none => rfl
        | some statement => rfl

theorem statementIsStrict_overwrite (h : AllUnread more around n) :
    statementIsStrict (n.overwrite more) = statementIsStrict n := by
  unfold statementIsStrict
  rw [Node.kind_overwrite, child?_overwrite h.self (reads_of_notMem (by decide))]
  cases hc : n.child? "expression" with
  | none => rfl
  | some e =>
    have he := (h.child (Node.child?_mem hc)).self
    simp only [Option.map_some, Node.kind_overwrite,
      stringData?_overwrite he (reads_of_notMem (show "value" ∉ annotationKeys by decide))]

theorem isStrict_overwrite (h : AllUnread more around n) :
    isStrict (n.overwrite more) = isStrict n := by
  rw [isStrict_eq, isStrict_eq, bodyBlock?_overwrite h.self]
  cases hb : bodyBlock? n with
  | none => rfl
  | some block =>
    obtain ⟨around', hblock⟩ := h.bodyBlock hb
    simp only [Option.map_some, Option.bind_some,
      list?_overwrite hblock.self (reads_of_notMem (show "body" ∉ annotationKeys by decide))]
    cases ((block.list? "body").bind List.head?).join with
    | none => rfl
    | some first =>
      simp only [Option.bind_some, childAt?_overwrite]
      cases hs : block.childAt? first with
      | none => rfl
      | some statement =>
        exact statementIsStrict_overwrite (hblock.child (Node.childAt?_mem hs))

namespace Pass

theorem freshScope_overwrite (parent : Option ScopeId) (h : Unread more n) :
    freshScope parent (n.overwrite more) = freshScope parent n := by
  unfold freshScope
  rw [data?_overwrite h (reads_of_notMem (by decide)), nameOf?_overwrite h, Node.kind_overwrite,
    Node.id_overwrite]

theorem enterContext_overwrite (p : Pass) (tracking : Bool) (h : AllUnread more around n) :
    p.enterContext tracking (n.overwrite more) = p.enterContext tracking n := by
  unfold enterContext
  rw [freshScope_overwrite _ h.self, hoisted_overwrite h, isStrict_overwrite h, Node.id_overwrite]

theorem enter_overwrite (p : Pass) (h : AllUnread more around n) :
    p.enter (n.overwrite more) = p.enter n := by
  unfold enter
  rw [Node.kind_overwrite, Node.role_overwrite, Node.id_overwrite, nameOf?_overwrite h.self,
    stringData?_overwrite h.self (reads_of_notMem (by decide))]
  split
  case h_3 hk =>
    have hlabel : ((n.overwrite more).child? "label").bind (·.stringData? "name") =
        (n.child? "label").bind (·.stringData? "name") := by
      rw [child?_overwrite h.self (.inr ⟨rfl, hk⟩)]
      cases hc : n.child? "label" with
      | none => rfl
      | some c =>
        exact stringData?_overwrite (h.child (Node.child?_mem hc)).self
          (reads_of_notMem (by decide))
    rw [hlabel, child?_overwrite h.self (reads_of_notMem (by decide))]
    cases (n.child? "label").bind (·.stringData? "name") with
    | none => rfl
    | some label =>
      cases n.child? "body" with
      | none => rfl
      | some body => simp only [Option.map_some, Node.id_overwrite]
  all_goals rfl

theorem exitLabel?_overwrite (t : ScopeTable) (h : Unread more n) :
    exitLabel? t (n.overwrite more) = exitLabel? t n := by
  have hlabel {key : String} (hkey : key ∉ annotationKeys) :
      ((n.overwrite more).child? key).bind (fun c => t.srcName? c.id) =
        (n.child? key).bind fun c => t.srcName? c.id := by
    rw [child?_overwrite h (reads_of_notMem hkey)]
    cases n.child? key with
    | none => rfl
    | some c => simp only [Option.map_some, Option.bind_some, Node.id_overwrite]
  have hliteral : literalLabel (n.overwrite more) = literalLabel n := by
    unfold literalLabel
    rw [data?_overwrite h (reads_of_notMem (by decide)),
      data?_overwrite h (reads_of_notMem (by decide)),
      stringData?_overwrite h (reads_of_notMem (by decide))]
  unfold exitLabel?
  dsimp only
  rw [Node.kind_overwrite, hliteral, hlabel (by decide), hlabel (by decide), hlabel (by decide),
    hlabel (by decide), hlabel (by decide),
    stringData?_overwrite h (reads_of_notMem (by decide)),
    stringData?_overwrite h (reads_of_notMem (by decide)),
    isTrue_overwrite h (reads_of_notMem (by decide)),
    list?_overwrite h (reads_of_notMem (by decide))]

variable {parent : Option Node}

theorem begin_overwrite (p : Pass) (tracking : Bool) (hp : ParentUnread more parent)
    (h : AllUnread more around n) :
    p.begin tracking (parent.map (·.overwrite more)) (n.overwrite more) =
      p.begin tracking parent n := by
  simp only [Pass.begin, openBlock, declare, Node.kind_overwrite, enter_overwrite p h,
    declarations_overwrite hp h.self, enterContext_overwrite _ tracking h, blockNames_overwrite h]

theorem finish_overwrite (p : Pass) (tracking : Bool) (h : Unread more n) :
    p.finish tracking (n.overwrite more) = p.finish tracking n := by
  simp only [Pass.finish, closeBlock, Pass.exit, Node.kind_overwrite, exitLabel?_overwrite _ h,
    Node.id_overwrite]

/-- The walk of a node into which data has been written is the walk of the node. -/
theorem visit_overwrite (p : Pass) (tracking : Bool) (hp : ParentUnread more parent)
    (h : AllUnread more around n) :
    visit tracking (parent.map (·.overwrite more)) (n.overwrite more) p =
      visit tracking parent n p := by
  induction n using Node.induct generalizing parent around p with
  | step n ih =>
    have hchildren (q : Pass) : (n.children.map (·.overwrite more)).foldl
        (fun p c => visit tracking (some (n.overwrite more)) c p) q =
          n.children.foldl (fun p c => visit tracking (some n) c p) q := by
      rw [List.foldl_map]
      exact List.foldl_ext _ _ q fun q c hc =>
        ih c hc q (parentUnread_some h.self) (h.child hc)
    rw [visit_eq, visit_eq, begin_overwrite p tracking hp h, Node.children_overwrite, hchildren,
      finish_overwrite _ tracking h.self]

end Pass

/-- Annotations do not depend on what is written under their keys. -/
theorem annotate_overwrite {t : Tree} (tracking : Bool) (h : ∀ s ∈ t.sites, Unread more s.1) :
    annotate tracking (t.overwrite more) = annotate tracking t :=
  congrArg Pass.table (Pass.visit_overwrite _ tracking (show ParentUnread more none from nofun) h)

end ScriptSandbox.Scope
