import ScriptSandbox.Proofs.Syntax.Site
import ScriptSandbox.Scope.Declaration

/-
  The contexts around a site.

  `enclosures` reads a path as the contexts around a site, nearest first, each with those of its
  nodes around the site that open a block. A context outside an open one stands as it stood when the
  inner one was reached (`enclosures_eq_cons`), so the blocks around a nested function are those
  around its node.
-/

namespace ScriptSandbox.Scope

open Syntax

/-- A context around a site, with the nodes of it around the site that open a block, the nearest
    first. -/
structure Enclosure where
  context : Node
  blocks : List Node

/-- The node itself, if it opens a block. -/
def blockOf (n : Node) : List Node := if n.kind.opensBlock then [n] else []

/-- The contexts around a site, the nearest first. A program is a block of its own context. -/
def enclosures : List Node → List Enclosure
  | [] => []
  | n :: rest =>
    if n.kind.isContext then ⟨n, blockOf n⟩ :: enclosures rest
    else
      match enclosures rest with
      | [] => []
      | e :: es => { e with blocks := blockOf n ++ e.blocks } :: es

/-- The nearest context around a site. -/
def nearestContext? (path : List Node) : Option Node := path.find? (·.kind.isContext)

variable {n : Node} {path rest : List Node} {e : Enclosure} {es : List Enclosure}

theorem enclosures_of_context (hn : n.kind.isContext = true) :
    enclosures (n :: rest) = ⟨n, blockOf n⟩ :: enclosures rest := by
  simp [enclosures, hn]

theorem enclosures_of_inner (hn : n.kind.isContext = false) (he : enclosures rest = e :: es) :
    enclosures (n :: rest) = { e with blocks := blockOf n ++ e.blocks } :: es := by
  simp [enclosures, hn, he]

theorem enclosures_of_outside (hn : n.kind.isContext = false) (he : enclosures rest = []) :
    enclosures (n :: rest) = [] := by
  simp [enclosures, hn, he]

theorem enclosures_of_plain (hn : n.kind.isContext = false) (hb : n.kind.opensBlock = false) :
    enclosures (n :: rest) = enclosures rest := by
  cases he : enclosures rest with
  | nil => exact enclosures_of_outside hn he
  | cons e es => rw [enclosures_of_inner hn he, blockOf, hb]; rfl

theorem head?_enclosures (path : List Node) :
    (enclosures path).head?.map (·.context) = nearestContext? path := by
  induction path with
  | nil => rfl
  | cons n rest ih =>
    unfold nearestContext? at ih ⊢
    cases hn : n.kind.isContext with
    | true => simp [enclosures_of_context hn, hn]
    | false =>
      rw [List.find?_cons_of_neg (by simp [hn]), ← ih]
      cases he : enclosures rest with
      | nil => rw [enclosures_of_outside hn he]
      | cons e es => rw [enclosures_of_inner hn he]; rfl

/-- The nearest context stands on the path behind nodes of its own; behind it stand the others. -/
theorem enclosures_eq_cons (h : enclosures path = e :: es) :
    ∃ between above, path = between ++ e.context :: above ∧ enclosures above = es ∧
      e.context.kind.isContext = true ∧ ∀ x ∈ between, x.kind.isContext = false := by
  induction path generalizing e es with
  | nil => cases h
  | cons n rest ih =>
    cases hn : n.kind.isContext with
    | true =>
      rw [enclosures_of_context hn] at h
      cases h
      exact ⟨[], rest, rfl, rfl, hn, by simp⟩
    | false =>
      cases he : enclosures rest with
      | nil => rw [enclosures_of_outside hn he] at h; cases h
      | cons e' es' =>
        rw [enclosures_of_inner hn he] at h
        cases h
        obtain ⟨between, above, rfl, hes, hc, hb⟩ := ih he
        exact ⟨n :: between, above, rfl, hes, hc, List.forall_mem_cons.mpr ⟨hn, hb⟩⟩

/-- Around a site below a context stand contexts in between, the context, and those around it. -/
theorem enclosures_append (hn : n.kind.isContext = true) (between above : List Node) :
    ∃ inner e, enclosures (between ++ n :: above) = inner ++ e :: enclosures above ∧
      e.context = n ∧ ∀ x ∈ inner, x.context ∈ between := by
  induction between with
  | nil => exact ⟨[], _, enclosures_of_context hn, rfl, by simp⟩
  | cons m between ih =>
    obtain ⟨inner, e, he, rfl, hinner⟩ := ih
    rw [List.cons_append]
    cases hm : m.kind.isContext with
    | true =>
      refine ⟨⟨m, blockOf m⟩ :: inner, e, by rw [enclosures_of_context hm, he]; rfl, rfl, ?_⟩
      exact List.forall_mem_cons.mpr ⟨List.mem_cons_self, fun x hx =>
        List.mem_cons_of_mem _ (hinner x hx)⟩
    | false =>
      cases inner with
      | nil =>
        rw [List.nil_append] at he
        exact ⟨[], _, enclosures_of_inner hm he, rfl, by simp⟩
      | cons x inner =>
        rw [List.cons_append] at he
        obtain ⟨hx, hinner⟩ := List.forall_mem_cons.mp hinner
        refine ⟨_ :: inner, e, enclosures_of_inner hm he, rfl, ?_⟩
        exact List.forall_mem_cons.mpr ⟨List.mem_cons_of_mem _ hx, fun y hy =>
          List.mem_cons_of_mem _ (hinner y hy)⟩

/-- The contexts around a site are the nodes around it that are contexts. -/
theorem exists_enclosure_iff :
    (∃ e ∈ enclosures path, e.context = n) ↔ n ∈ path ∧ n.kind.isContext = true := by
  induction path with
  | nil => simp [enclosures]
  | cons m rest ih =>
    cases hm : m.kind.isContext with
    | true =>
      simp only [enclosures_of_context hm, List.mem_cons, exists_eq_or_imp, ih]
      constructor
      · rintro (rfl | ⟨hn, hk⟩)
        · exact ⟨.inl rfl, hm⟩
        · exact ⟨.inr hn, hk⟩
      · rintro ⟨rfl | hn, hk⟩
        · exact .inl rfl
        · exact .inr ⟨hn, hk⟩
    | false =>
      have hskip : (∃ e ∈ enclosures (m :: rest), e.context = n) ↔
          ∃ e ∈ enclosures rest, e.context = n := by
        cases he : enclosures rest with
        | nil => rw [enclosures_of_outside hm he]
        | cons e es =>
          simp only [enclosures_of_inner hm he, List.mem_cons, exists_eq_or_imp]
      rw [hskip, ih, List.mem_cons]
      constructor
      · exact fun ⟨hn, hk⟩ => ⟨.inr hn, hk⟩
      · rintro ⟨rfl | hn, hk⟩
        · simp [hm] at hk
        · exact ⟨hn, hk⟩

end ScriptSandbox.Scope
