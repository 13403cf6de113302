import Mathlib.Data.List.Nodup
import ScriptSandbox.Proofs.Syntax.Site
import ScriptSandbox.Syntax.Lowering

/-
  The numbers of a tree.

  Numbers are given out in the order of a walk, without gaps: the sites of a tree have the numbers
  from zero up to its size (`Tree.map_id_sites`), so a number belongs to one site only
  (`Tree.site_unique`). `Node.Spans` says the same along the recursion of a walk, which is the form
  that inductions over a walk need. The children of a node whose plan visits the body alone are the
  nodes of its body (`Tree.children_of_bodyPlan`).
-/

namespace ScriptSandbox.Syntax

namespace Node

mutual

/-- The node and all below it have the numbers from `start` up to `stop`, in the order of a walk. -/
def Spans : Node → (start stop : Nat) → Prop
  | ⟨id, _, _, _, children⟩, start, stop => id = start ∧ SpansAll children (start + 1) stop

def SpansAll : List Node → (start stop : Nat) → Prop
  | [], start, stop => start = stop
  | c :: rest, start, stop => ∃ mid, c.Spans start mid ∧ SpansAll rest mid stop

end

theorem spans_iff {n : Node} {start stop : Nat} :
    n.Spans start stop ↔ n.id = start ∧ SpansAll n.children (start + 1) stop := by
  cases n
  rfl

theorem SpansAll.append {ns ms : List Node} {i j k : Nat} (hn : SpansAll ns i j)
    (hm : SpansAll ms j k) : SpansAll (ns ++ ms) i k := by
  induction ns generalizing i with
  | nil => exact hn ▸ hm
  | cons c ns ih =>
    obtain ⟨mid, hc, hn⟩ := hn
    exact ⟨mid, hc, ih hn⟩

theorem map_id_sitesAll {ns : List Node} {around : List Node}
    (hns : ∀ c ∈ ns, ∀ i j, c.Spans i j → i < j ∧
      (c.sites around).map (·.1.id) = List.range' i (j - i)) {i j : Nat}
    (h : SpansAll ns i j) :
    i ≤ j ∧ (ns.flatMap (·.sites around)).map (·.1.id) = List.range' i (j - i) := by
  induction ns generalizing i with
  | nil =>
    cases h
    simp
  | cons c ns ih =>
    obtain ⟨mid, hc, h⟩ := h
    obtain ⟨hlt, hc⟩ := hns c List.mem_cons_self i mid hc
    obtain ⟨hle, hrest⟩ := ih (fun c' hc' => hns c' (List.mem_cons_of_mem _ hc')) h
    refine ⟨by omega, ?_⟩
    have hj : j - i = (mid - i) + (j - mid) := by omega
    have hmid : mid = i + (mid - i) := by omega
    rw [List.flatMap_cons, List.map_append, hc, hrest, hj, ← List.range'_append_1, ← hmid]

/-- The numbers of the sites of a node are consecutive. -/
theorem map_id_sites {n : Node} {i j : Nat} (h : n.Spans i j) (around : List Node) :
    i < j ∧ (n.sites around).map (·.1.id) = List.range' i (j - i) := by
  induction n using induct generalizing i j around with
  | step n ih =>
    obtain ⟨rfl, h⟩ := spans_iff.mp h
    obtain ⟨hle, hrest⟩ := map_id_sitesAll (fun c hc i j h => ih c hc h (n :: around)) h
    refine ⟨by omega, ?_⟩
    have hj : j - n.id = (j - (n.id + 1)) + 1 := by omega
    rw [sites_eq, List.map_cons, hrest, hj, List.range'_succ]

theorem SpansAll.le_id {ns : List Node} {i j : Nat} (h : SpansAll ns i j) :
    ∀ c ∈ ns, i ≤ c.id := by
  induction ns generalizing i with
  | nil => simp
  | cons c ns ih =>
    obtain ⟨mid, hc, h⟩ := h
    have hlt := (map_id_sites hc []).1
    have hid := (spans_iff.mp hc).1
    refine List.forall_mem_cons.mpr ⟨Nat.le_of_eq hid.symm, fun c' hc' => ?_⟩
    have := ih h c' hc'
    omega

/-- Nodes numbered one after the other have ascending numbers. -/
theorem SpansAll.pairwise_id {ns : List Node} {i j : Nat} (h : SpansAll ns i j) :
    (ns.map (·.id)).Pairwise (· < ·) := by
  induction ns generalizing i with
  | nil => simp
  | cons c ns ih =>
    obtain ⟨mid, hc, h⟩ := h
    have hlt := (map_id_sites hc []).1
    have hid := (spans_iff.mp hc).1
    refine List.pairwise_cons.mpr ⟨fun id hmem => ?_, ih h⟩
    obtain ⟨c', hc', rfl⟩ := List.mem_map.mp hmem
    exact Nat.lt_of_le_of_lt (Nat.le_of_eq hid) (Nat.lt_of_lt_of_le hlt (h.le_id c' hc'))

theorem SpansAll.nodup {ns : List Node} {i j : Nat} (h : SpansAll ns i j) :
    (ns.map (·.id)).Nodup :=
  h.pairwise_id.imp Nat.ne_of_lt

theorem SpansAll.exists_spans {ns : List Node} {i j : Nat} (h : SpansAll ns i j) {c : Node}
    (hc : c ∈ ns) : ∃ i' j', c.Spans i' j' := by
  induction ns generalizing i with
  | nil => cases hc
  | cons c' ns ih =>
    obtain ⟨mid, hc', h⟩ := h
    rcases List.mem_cons.mp hc with rfl | hc
    · exact ⟨i, mid, hc'⟩
    · exact ih h hc

/-- A child has a greater number than its parent. -/
theorem Spans.id_lt_child {n : Node} {i j : Nat} (h : n.Spans i j) {c : Node}
    (hc : c ∈ n.children) : n.id < c.id := by
  obtain ⟨rfl, h⟩ := spans_iff.mp h
  exact h.le_id c hc

theorem exists_spans_of_mem_sites {n : Node} {i j : Nat} (h : n.Spans i j) {around : List Node}
    {s : Node × List Node} (hs : s ∈ n.sites around) : ∃ i' j', s.1.Spans i' j' := by
  induction n using induct generalizing i j around with
  | step n ih =>
    rcases mem_sites.mp hs with rfl | ⟨c, hc, hs⟩
    · exact ⟨i, j, h⟩
    · obtain ⟨i', j', hc'⟩ := (spans_iff.mp h).2.exists_spans hc
      exact ih c hc hc' hs

end Node

/-! ## Numbering in the order of a plan -/

/-- A waiting node is sound if it takes consecutive numbers from the one it gets, and all nodes in
    it are as `good` says. -/
def Unnumbered.Sound (good : Node → Prop) (u : Unnumbered) : Prop :=
  ∀ role id, (u role id).1.Spans id (u role id).2 ∧
    ∀ around, ∀ s ∈ (u role id).1.sites around, good s.1

def Visit.Sound (good : Node → Prop) : Visit → Prop
  | .node u => u.Sound good
  | .list slots => ∀ u, some u ∈ slots → Unnumbered.Sound good u
  | .plain => True

section

variable {good : Node → Prop}

/-- Nodes that are numbered one after the other, each with all nodes in it as `good` says. -/
def Numbered (good : Node → Prop) (nodes : List Node) (start stop : Nat) : Prop :=
  Node.SpansAll nodes start stop ∧ ∀ c ∈ nodes, ∀ around, ∀ s ∈ c.sites around, good s.1

theorem Numbered.append {ns ms : List Node} {i j k : Nat} (hn : Numbered good ns i j)
    (hm : Numbered good ms j k) : Numbered good (ns ++ ms) i k :=
  ⟨hn.1.append hm.1, fun c hc => (List.mem_append.mp hc).elim (hn.2 c) (hm.2 c)⟩

theorem Unnumbered.Sound.numbered {u : Unnumbered} (hu : u.Sound good) (role : Role) (id : Nat) :
    Numbered good [(u role id).1] id (u role id).2 :=
  ⟨⟨_, (hu role id).1, rfl⟩, fun _ hc => List.mem_singleton.mp hc ▸ (hu role id).2⟩

/-- The slots of a list have the numbers of its nodes. -/
theorem numberSlots_sound (role : Role) {slots : List (Option Unnumbered)}
    (hs : ∀ u, some u ∈ slots → Unnumbered.Sound good u) (id : Nat) :
    Numbered good (numberSlots role slots id).1.2 id (numberSlots role slots id).2 ∧
      (numberSlots role slots id).1.1.filterMap (fun slot => slot) =
        (numberSlots role slots id).1.2.map (·.id) := by
  induction slots generalizing id with
  | nil => exact ⟨⟨rfl, by simp [numberSlots]⟩, rfl⟩
  | cons slot slots ih =>
    have ih := ih fun u hu => hs u (List.mem_cons_of_mem _ hu)
    cases slot with
    | none => exact ih id
    | some u =>
      have hu := (hs u List.mem_cons_self).numbered role id
      obtain ⟨hrest, hids⟩ := ih (u role id).2
      refine ⟨hu.append hrest, ?_⟩
      simp only [numberSlots, List.filterMap_cons, List.map_cons, hids]

theorem numberVisit_sound (role : Role) {v : Visit} (hv : v.Sound good) (id : Nat) :
    Numbered good (numberVisit role v id).1.2 id (numberVisit role v id).2 := by
  cases v with
  | node u => exact Unnumbered.Sound.numbered hv role id
  | list slots => exact (numberSlots_sound role hv id).1
  | plain => exact ⟨rfl, by simp [numberVisit]⟩

theorem visitOf?_sound {visits : List (String × Visit)} (hv : ∀ e ∈ visits, e.2.Sound good)
    {key : String} {v : Visit} (h : visitOf? key visits = some v) : v.Sound good := by
  induction visits with
  | nil => cases h
  | cons e visits ih =>
    obtain ⟨k, u⟩ := e
    simp only [visitOf?] at h
    split at h
    · cases h
      exact hv _ List.mem_cons_self
    · exact ih (fun e he => hv e (List.mem_cons_of_mem _ he)) h

theorem numberPlan_sound {visits : List (String × Visit)} (hv : ∀ e ∈ visits, e.2.Sound good)
    (plan : List (String × Role)) (id : Nat) :
    Numbered good (numberPlan visits plan id).1.2 id (numberPlan visits plan id).2 := by
  induction plan generalizing id with
  | nil => exact ⟨rfl, by simp [numberPlan]⟩
  | cons e plan ih =>
    obtain ⟨key, role⟩ := e
    simp only [numberPlan]
    split
    · exact ih id
    · next v hkey =>
      have hfirst := numberVisit_sound role (visitOf?_sound hv hkey) id
      have hrest := ih (numberVisit role v id).2
      split <;> exact hfirst.append hrest

end

/-! ## Bodies -/

/-- Where the body is all that is visited, the children are the nodes of the body. -/
def Node.BodyListed (n : Node) : Prop :=
  fixedPlan? n.kind = some [("body", .reference)] →
    n.children = (n.child? "body").toList ++ n.listNodes "body"

theorem visitOf?_visitFields (key : String) (fields : List (String × Document)) :
    visitOf? key (visitFields fields) = (Document.fieldValue? key fields).map visitValue := by
  induction fields with
  | nil => rfl
  | cons e fields ih =>
    obtain ⟨k, d⟩ := e
    by_cases h : k = key <;> simp [visitFields, visitOf?, Document.fieldValue?, h, ih]

/-- The fields of a numbered node: those visited refer to its children, the others are kept. -/
theorem fieldValue?_map (key : String) (fields : List (String × Document))
    (visited : List (String × Field)) :
    Node.fieldValue? key
        (fields.map fun (k, d) => (k, (Node.fieldValue? k visited).getD (.data d))) =
      (Document.fieldValue? key fields).map fun d =>
        (Node.fieldValue? key visited).getD (.data d) := by
  induction fields with
  | nil => rfl
  | cons e fields ih =>
    obtain ⟨k, d⟩ := e
    by_cases h : k = key <;> simp [Node.fieldValue?, Document.fieldValue?, h, ih]

theorem find?_id_of_mem {c : Node} {ns : List Node} (hns : (ns.map (·.id)).Nodup)
    (hc : c ∈ ns) : ns.find? (fun c' => c'.id == c.id) = some c := by
  induction ns with
  | nil => cases hc
  | cons c' ns ih =>
    obtain ⟨hnot, hns⟩ := List.nodup_cons.mp hns
    rcases List.mem_cons.mp hc with rfl | hc
    · simp
    · have hne : c'.id ≠ c.id := fun he => hnot (List.mem_map.mpr ⟨c, hc, he.symm⟩)
      simp [hne, ih hns hc]

theorem filterMap_find?_id {ns : List Node} (hns : (ns.map (·.id)).Nodup) :
    (ns.map (·.id)).filterMap (fun id => ns.find? fun c => c.id == id) = ns := by
  rw [List.filterMap_map]
  have h : ∀ c ∈ ns, ((fun id => ns.find? fun c' => c'.id == id) ∘ fun c => c.id) c = some c :=
    fun c hc => find?_id_of_mem hns hc
  rw [List.filterMap_congr h, List.filterMap_some]

/-- The nodes of a list are found again by the numbers in its slots. -/
theorem filterMap_slots {ns : List Node} (hns : (ns.map (·.id)).Nodup)
    {slots : List (Option NodeId)} (hs : slots.filterMap (fun slot => slot) = ns.map (·.id)) :
    slots.filterMap (fun slot => slot.bind fun id => ns.find? fun c => c.id == id) = ns := by
  calc slots.filterMap (fun slot => slot.bind fun id => ns.find? fun c => c.id == id)
      = (slots.filterMap fun slot => slot).filterMap fun id => ns.find? fun c => c.id == id := by
        rw [List.filterMap_filterMap]
    _ = ns := by rw [hs, filterMap_find?_id hns]

theorem numberNode_bodyListed {kind : Kind} {fields : List (String × Document)}
    (hv : ∀ e ∈ visitFields fields, e.2.Sound Node.BodyListed) (role : Role) (id : Nat) :
    (numberNode kind fields (visitFields fields) role id).1.BodyListed := by
  intro hk
  have hk : visitPlan kind fields (visitFields fields) = [("body", .reference)] := by
    have hk : fixedPlan? kind = some [("body", .reference)] := hk
    simp [visitPlan, hk]
  have hids := (numberPlan_sound hv [("body", .reference)] (id + 1)).1.nodup
  simp only [numberNode, hk, Node.child?, Node.listNodes, Node.list?, Node.field?,
    fieldValue?_map, Node.childAt?]
  simp only [numberPlan, visitOf?_visitFields] at hids ⊢
  cases hbody : Document.fieldValue? "body" fields with
  | none => simp
  | some d =>
    have hvisitOf : visitOf? "body" (visitFields fields) = some (visitValue d) :=
      (visitOf?_visitFields "body" fields).trans (by rw [hbody]; rfl)
    have hd : (visitValue d).Sound Node.BodyListed := visitOf?_sound hv hvisitOf
    simp only [hbody, Option.map_some] at hids ⊢
    cases hvisit : visitValue d with
    | plain => simp [numberVisit, Node.fieldValue?]
    | node u => simp [numberVisit, Node.fieldValue?]
    | list slots =>
      rw [hvisit] at hd hids
      have hslots := (numberSlots_sound .reference hd (id + 1)).2
      simp only [numberVisit, List.append_nil] at hids
      simp only [numberVisit, Node.fieldValue?, if_true, Option.getD_some, Option.toList_none,
        List.nil_append, List.append_nil]
      exact (filterMap_slots hids hslots).symm

/-! ## Everything in a document -/

/-- What is assumed of a document is passed on to its parts, and it makes a node as it should be
    once the nodes in its fields are. -/
structure Carries (fine : Document → Prop) (good : Node → Prop) : Prop where
  items : ∀ items, fine (.array items) → ∀ d ∈ items, fine d
  fields : ∀ fields, fine (.object fields) → ∀ e ∈ fields, fine e.2
  node : ∀ tag fields, Document.fieldValue? "type" fields = some (.string tag) →
    fine (.object fields) → (∀ e ∈ visitFields fields, e.2.Sound good) →
    ∀ role id, good (numberNode (.ofTag tag) fields (visitFields fields) role id).1

section

variable {fine : Document → Prop} {good : Node → Prop}

mutual

/-- All nodes of a document are as they should be. -/
theorem visitValue_sound (h : Carries fine good) :
    ∀ d : Document, fine d → (visitValue d).Sound good
  | .object fields, hd => by
    simp only [visitValue]
    split
    · next tag htype =>
      have hv := visitFields_sound h fields (h.fields fields hd)
      intro role id
      obtain ⟨hspans, hgood⟩ :=
        numberPlan_sound hv (visitPlan _ fields (visitFields fields)) (id + 1)
      refine ⟨Node.spans_iff.mpr ⟨rfl, hspans⟩, fun around s hs => ?_⟩
      rcases Node.mem_sites.mp hs with rfl | ⟨c, hc, hs⟩
      · exact h.node tag fields htype hd hv role id
      · exact hgood c hc _ s hs
    · trivial
  | .array items, hd => by
    simp only [visitValue]
    split
    · next slots hslots => exact visitItems_sound h items (h.items items hd) slots hslots
    · trivial
  | .null, _ => trivial
  | .boolean _, _ => trivial
  | .number _, _ => trivial
  | .string _, _ => trivial

theorem visitFields_sound (h : Carries fine good) :
    ∀ fields : List (String × Document), (∀ e ∈ fields, fine e.2) →
      ∀ e ∈ visitFields fields, e.2.Sound good
  | [], _ => fun _ h => nomatch h
  | (_, value) :: rest, hd => by
    obtain ⟨hvalue, hrest⟩ := List.forall_mem_cons.mp hd
    exact List.forall_mem_cons.mpr ⟨visitValue_sound h value hvalue,
      visitFields_sound h rest hrest⟩

theorem visitItems_sound (h : Carries fine good) :
    ∀ items : List Document, (∀ d ∈ items, fine d) → ∀ slots, visitItems items = some slots →
      ∀ u, some u ∈ slots → u.Sound good
  | [], _, slots => by
    rintro hslots u hu
    cases hslots
    cases hu
  | item :: rest, hd, slots => by
    obtain ⟨hitem, hrest⟩ := List.forall_mem_cons.mp hd
    have hitem := visitValue_sound h item hitem
    have hrest := visitItems_sound h rest hrest
    intro hslots u hu
    simp only [visitItems] at hslots
    split at hslots
    · obtain ⟨slots', h', rfl⟩ := Option.map_eq_some_iff.mp hslots
      exact hrest slots' h' u (by simpa using hu)
    · next u' hvisit =>
      obtain ⟨slots', h', rfl⟩ := Option.map_eq_some_iff.mp hslots
      rcases List.mem_cons.mp hu with he | hu
      · cases he
        rw [hvisit] at hitem
        exact hitem
      · exact hrest slots' h' u hu
    · cases hslots

end

end

theorem carries_bodyListed : Carries (fun _ => True) Node.BodyListed where
  items _ _ _ _ := trivial
  fields _ _ _ _ := trivial
  node _ _ _ _ hv := numberNode_bodyListed hv

/-! ## Trees of documents -/

namespace Tree

variable {t : Tree} {d : Document}

/-- The tree of a document has consecutive numbers, and all its nodes are as they should be. -/
theorem sound_of_carries {fine : Document → Prop} {good : Node → Prop} (hc : Carries fine good)
    (h : Tree.ofDocument d = .ok t) (hd : fine d) :
    t.root.Spans 0 t.size ∧ ∀ s ∈ t.sites, good s.1 := by
  have hsound := visitValue_sound hc d hd
  unfold Tree.ofDocument at h
  split at h
  · next u hvisit =>
    cases h
    rw [hvisit] at hsound
    exact ⟨(hsound .reference 0).1, (hsound .reference 0).2 []⟩
  · cases h

theorem sound_ofDocument (h : Tree.ofDocument d = .ok t) :
    t.root.Spans 0 t.size ∧ ∀ s ∈ t.sites, s.1.BodyListed :=
  sound_of_carries carries_bodyListed h trivial

/-- Induction along a walk: the children of a node are taken one after the other, each with the
    numbers that follow those of the one before it. -/
theorem walk_induct (node : Node → List Node → (start stop : Nat) → Prop)
    (nodes : List Node → List Node → (start stop : Nat) → Prop)
    (below : ∀ {n around} {stop : Nat}, (n, around) ∈ t.sites → stop > n.id →
      nodes n.children (n :: around) (n.id + 1) stop → node n around n.id stop)
    (nil : ∀ {around start}, nodes [] around start start)
    (cons : ∀ {c rest around} {start mid stop : Nat}, start < mid → mid ≤ stop →
      node c around start mid → nodes rest around mid stop → nodes (c :: rest) around start stop)
    {n : Node} {around : List Node} (hn : (n, around) ∈ t.sites) {start stop : Nat}
    (hs : n.Spans start stop) : node n around start stop := by
  induction n using Node.induct generalizing around start stop with
  | step n ih =>
    have hlt := (Node.map_id_sites hs []).1
    obtain ⟨rfl, hs⟩ := Node.spans_iff.mp hs
    have children : ∀ ns : List Node, (∀ c ∈ ns, c ∈ n.children) → ∀ {start : Nat},
        Node.SpansAll ns start stop → nodes ns (n :: around) start stop := by
      intro ns hns
      induction ns with
      | nil =>
        intro start hrest
        exact hrest ▸ nil
      | cons c rest ihns =>
        intro start hall
        obtain ⟨hc, hrest⟩ := List.forall_mem_cons.mp hns
        obtain ⟨mid, hmid, hall⟩ := hall
        have hstart := (Node.map_id_sites hmid []).1
        have hend := (Node.map_id_sitesAll (fun c _ i j h => Node.map_id_sites h []) hall).1
        exact cons hstart hend (ih c hc (mem_sites_cons.mpr ⟨hn, hc⟩) hmid) (ihns hrest hall)
    exact below hn hlt (children n.children (fun _ hc => hc) hs)

/-- The numbers of the sites are their positions in the walk. -/
theorem map_id_sites (h : Tree.ofDocument d = .ok t) :
    t.sites.map (·.1.id) = List.range t.size := by
  rw [List.range_eq_range']
  exact (Node.map_id_sites (sound_ofDocument h).1 []).2

theorem id_lt_size (h : Tree.ofDocument d = .ok t) {s : Node × List Node} (hs : s ∈ t.sites) :
    s.1.id < t.size := by
  have hmem : s.1.id ∈ t.sites.map (·.1.id) := List.mem_map_of_mem hs
  rw [map_id_sites h] at hmem
  exact List.mem_range.mp hmem

/-- A number belongs to one site. -/
theorem site_unique (h : Tree.ofDocument d = .ok t) {s s' : Node × List Node} (hs : s ∈ t.sites)
    (hs' : s' ∈ t.sites) (he : s.1.id = s'.1.id) : s = s' := by
  have hnodup : (t.sites.map (·.1.id)).Nodup := by
    rw [map_id_sites h]
    exact List.nodup_range
  exact List.inj_on_of_nodup_map hnodup hs hs' he

/-- The nodes around a site have smaller numbers. -/
theorem id_lt_of_mem_around (h : Tree.ofDocument d = .ok t) {n : Node} {path : List Node}
    (hn : (n, path) ∈ t.sites) : ∀ x ∈ path, x.id < n.id := by
  induction path generalizing n with
  | nil => simp
  | cons p rest ih =>
    obtain ⟨hp, hc⟩ := Tree.mem_sites_cons.mp hn
    obtain ⟨i, j, hspans⟩ := Node.exists_spans_of_mem_sites (sound_ofDocument h).1 hp
    have hlt := hspans.id_lt_child hc
    exact List.forall_mem_cons.mpr ⟨hlt, fun x hx => Nat.lt_trans (ih hp x hx) hlt⟩

/-- Where the body is all that is visited, the children are the nodes of the body. -/
theorem children_eq_body (h : Tree.ofDocument d = .ok t) {n : Node} {path : List Node}
    (hn : (n, path) ∈ t.sites) (hk : fixedPlan? n.kind = some [("body", .reference)]) :
    n.children = (n.child? "body").toList ++ n.listNodes "body" :=
  (sound_ofDocument h).2 _ hn hk

end Tree

end ScriptSandbox.Syntax
