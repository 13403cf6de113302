import ScriptSandbox.Proofs.World.Alike

/-
  Computations that overlook upkeep.

  A host value that enters or leaves, and an access to a host object, are made of allocations and of
  wrappers, so alike worlds stay alike and give the same result. A failure is thrown behind a sweep
  of the heap, which starts from the well-known values and not from the caches.
-/

namespace ScriptSandbox.World

variable {E α : Type}

/-! ## Host values entering and leaving -/

mutual

theorem overlooks_link (realm : RealmId) : ∀ h : HostValue, Overlooks (E := E) (link realm h)
  | .undefined | .null | .boolean _ | .number _ => fun _ _ h => ⟨rfl, h⟩
  | .string s => overlooks_newString s
  | .array items => fun w w' h => by
    obtain ⟨hvs, hw⟩ := overlooks_linkAll realm items h
    simp only [link, hvs]
    exact overlooks_newArray _ hw
  | .object n => fun w w' h => by
    simp only [link, h.wellKnown?_eq realm n]
    split
    · exact ⟨rfl, h⟩
    · split
      · exact ⟨rfl, h⟩
      · exact overlooks_wrap .link realm n h

theorem overlooks_linkAll (realm : RealmId) :
    ∀ hs : List HostValue, Overlooks (E := E) (linkAll realm hs)
  | [] => fun _ _ h => ⟨rfl, h⟩
  | value :: rest => fun w w' h => by
    obtain ⟨hv, hw⟩ := overlooks_link realm value h
    obtain ⟨hvs, hrest⟩ := overlooks_linkAll realm rest hw
    simp only [linkAll]
    exact ⟨congrArg₂ List.cons hv hvs, hrest⟩

end

section

variable [Embedding E]

mutual

theorem overlooks_fromHostIn (realm? : Option RealmId) :
    ∀ h : HostValue, Overlooks (E := E) (fromHostIn realm? h)
  | .undefined | .null | .boolean _ | .number _ => fun _ _ h => ⟨rfl, h⟩
  | .string s => fun _ _ h =>
    have hs := overlooks_newString s h
    ⟨congrArg Except.ok hs.1, hs.2⟩
  | .array items => fun w w' h => by
    obtain ⟨hvs, hw⟩ := overlooks_fromHostAllIn realm? items h
    rw [fromHostIn, fromHostIn]
    generalize fromHostAllIn realm? items w = r at hvs hw
    generalize fromHostAllIn realm? items w' = r' at hvs hw
    obtain ⟨_ | vs, _⟩ := r <;> obtain ⟨_ | _, _⟩ := r' <;> cases hvs
    · exact ⟨rfl, hw⟩
    · obtain ⟨hv, hw⟩ := overlooks_newArray vs.toArray hw
      exact ⟨congrArg Except.ok hv, hw⟩
  | .object n => fun w w' h => by
    have hdisplay : w.display n = w'.display n := by
      obtain ⟨rs, h⟩ := h
      exact (display_withRealms w rs n).symm
    simp only [fromHostIn, hdisplay]
    split
    · exact ⟨rfl, h⟩
    · next realm _ =>
      obtain ⟨hv, hw⟩ := overlooks_wrap .bridge realm n h
      exact ⟨congrArg Except.ok hv, hw⟩
    · exact ⟨rfl, h⟩

theorem overlooks_fromHostAllIn (realm? : Option RealmId) :
    ∀ hs : List HostValue, Overlooks (E := E) (fromHostAllIn realm? hs)
  | [] => fun _ _ h => ⟨rfl, h⟩
  | value :: rest => fun w w' h => by
    obtain ⟨hv, hw⟩ := overlooks_fromHostIn realm? value h
    rw [fromHostAllIn, fromHostAllIn]
    generalize fromHostIn realm? value w = r at hv hw
    generalize fromHostIn realm? value w' = r' at hv hw
    obtain ⟨_ | v, w₁⟩ := r <;> obtain ⟨_ | _, w₁'⟩ := r' <;> cases hv
    · exact ⟨rfl, hw⟩
    · obtain ⟨hvs, hrest⟩ := overlooks_fromHostAllIn realm? rest hw
      dsimp only
      generalize fromHostAllIn realm? rest w₁ = q at hvs hrest
      generalize fromHostAllIn realm? rest w₁' = q' at hvs hrest
      obtain ⟨_ | _, _⟩ := q <;> obtain ⟨_ | _, _⟩ := q' <;> cases hvs <;> exact ⟨rfl, hrest⟩

end

theorem overlooks_fromHost (realm : RealmId) (value : HostValue) :
    Overlooks (E := E) (fromHost realm value) := by
  intro w w' h
  have hin := overlooks_fromHostIn (some realm) value h
  rw [fromHostIn_some, fromHostIn_some] at hin
  exact ⟨Except.ok.inj hin.1, hin.2⟩

end

theorem overlooks_toHostAll {convert : Value → World E → Option HostValue × World E}
    (hc : ∀ v, Overlooks (convert v)) (vs : List Value) : Overlooks (toHostAll convert vs) := by
  induction vs with
  | nil => exact fun _ _ h => ⟨rfl, h⟩
  | cons v rest ih =>
    intro w w' h
    obtain ⟨hv, hw⟩ := hc v h
    rw [toHostAll, toHostAll]
    generalize convert v w = r at hv hw
    generalize convert v w' = r' at hv hw
    obtain ⟨_ | v, w₁⟩ := r <;> obtain ⟨_ | _, w₁'⟩ := r' <;> cases hv
    · exact ⟨rfl, hw⟩
    · obtain ⟨hvs, hrest⟩ := ih hw
      dsimp only
      generalize toHostAll convert rest w₁ = q at hvs hrest
      generalize toHostAll convert rest w₁' = q' at hvs hrest
      obtain ⟨_ | _, _⟩ := q <;> obtain ⟨_ | _, _⟩ := q' <;> cases hvs <;> exact ⟨rfl, hrest⟩

theorem overlooks_toHostWithin (depth : Nat) (v : Value) :
    Overlooks (E := E) (toHostWithin depth v) := by
  induction depth generalizing v with
  | zero =>
    rintro w _ ⟨rs, h⟩
    rcases v with ⟨_ | _ | _ | _ | _⟩ | _ | _ | _ | _ <;> exact ⟨rfl, rs, h⟩
  | succ depth ih =>
    intro w w' ha
    rcases v with ⟨_ | _ | _ | _ | _⟩ | _ | id | _ | _ <;>
      try (obtain ⟨rs, h⟩ := ha; exact ⟨rfl, rs, h⟩)
    have harray : w.array id = w'.array id := by
      obtain ⟨rs, h⟩ := ha
      rfl
    obtain ⟨hvs, hw⟩ := overlooks_toHostAll ih (w.array id).elements.toList ha
    rw [toHostWithin, toHostWithin, ← harray]
    generalize toHostAll (toHostWithin depth) (w.array id).elements.toList w = r at hvs hw
    generalize toHostAll (toHostWithin depth) (w.array id).elements.toList w' = r' at hvs hw
    obtain ⟨_ | _, _⟩ := r <;> obtain ⟨_ | _, _⟩ := r' <;> cases hvs <;> exact ⟨rfl, hw⟩

theorem overlooks_toHost (v : Value) : Overlooks (E := E) (toHost v) := by
  intro w w' h
  have hsize : w.arrays.size = w'.arrays.size := by
    obtain ⟨rs, h⟩ := h
    rfl
  rw [toHost, toHost, ← hsize]
  exact overlooks_toHostWithin w.arrays.size v h

theorem overlooks_toHostList (vs : List Value) : Overlooks (E := E) (toHostList vs) :=
  overlooks_toHostAll overlooks_toHost vs

/-! ## Access to host objects -/

section

variable [Embedding E]

omit [Embedding E] in
theorem overlooks_hosted (f : E → α × E) : Overlooks (hosted f) := by
  rintro w _ ⟨rs, h⟩
  exact ⟨rfl, rs, h⟩

theorem overlooks_getProperty (n : Native) (name : String) :
    Overlooks (E := E) (getProperty n name) := by
  cases n with
  | hosted id => exact overlooks_hosted _
  | bookmark serial target => exact fun _ _ h => ⟨rfl, h⟩
  | error serial errorName message =>
    obtain ⟨v, -, hv⟩ := getProperty_error (E := E) serial errorName message name
    intro w w' h
    rw [hv, hv]
    exact ⟨rfl, h⟩

theorem overlooks_setProperty (n : Native) (name : String) (value : HostValue) :
    Overlooks (E := E) (setProperty n name value) := by
  cases n with
  | hosted id => exact overlooks_hosted _
  | _ => exact fun _ _ h => ⟨rfl, h⟩

theorem overlooks_deleteProperty (n : Native) (name : String) :
    Overlooks (E := E) (deleteProperty n name) := by
  cases n with
  | hosted id => exact overlooks_hosted _
  | _ => exact fun _ _ h => ⟨rfl, h⟩

theorem overlooks_callNative (n : Native) (receiver : HostValue) (args : List HostValue) :
    Overlooks (E := E) (callNative n receiver args) := by
  cases n with
  | hosted id => exact overlooks_hosted _
  | error serial name message => exact fun _ _ h => ⟨rfl, h⟩
  | bookmark serial target =>
    rintro w _ ⟨rs, h⟩
    refine ⟨?_, rs, h⟩
    rw [callNative, callNative, debugText_withRealms]

theorem overlooks_primitiveForm (n : Native) : Overlooks (E := E) (primitiveForm n) := by
  cases n with
  | hosted id => exact overlooks_hosted _
  | _ => exact fun _ _ h => ⟨rfl, h⟩

/-- The text of a host object as a string. -/
theorem overlooks_displayText (n : Native) : Overlooks (E := E) fun w =>
    (Primitive.string (w.newText (w.display n)).1, (w.newText (w.display n)).2) := by
  intro w w' h
  have hdisplay : w.display n = w'.display n := by
    obtain ⟨rs, h⟩ := h
    exact (display_withRealms w rs n).symm
  obtain ⟨ht, hw⟩ := overlooks_newText (w.display n) h
  dsimp only
  rw [← hdisplay]
  exact ⟨congrArg Primitive.string ht, hw⟩

theorem overlooks_hostPrimitive (n : Native) : Overlooks (E := E) (hostPrimitive n) := by
  intro w w' h
  obtain ⟨hp, hw⟩ := overlooks_primitiveForm n h
  unfold hostPrimitive
  generalize w.primitiveForm n = r at hp hw
  generalize w'.primitiveForm n = r' at hp hw
  obtain ⟨_ | value, w₁⟩ := r <;> obtain ⟨_ | _, w₁'⟩ := r' <;> cases hp
  · exact overlooks_displayText n hw
  · obtain ⟨hv, hin⟩ := overlooks_fromHostIn none value hw
    dsimp only
    generalize w₁.fromHostIn none value = q at hv hin
    generalize w₁'.fromHostIn none value = q' at hv hin
    obtain ⟨_ | v, _⟩ := q <;> obtain ⟨_ | _, _⟩ := q' <;> cases hv
    · exact overlooks_displayText n hin
    · cases v with
      | primitive p => exact ⟨rfl, hin⟩
      | _ => exact overlooks_displayText n hin

theorem overlooks_scriptError (realm : RealmId) (name message : String) :
    Overlooks (E := E) (scriptError realm name message) := by
  intro w w' h
  obtain ⟨hn, hw⟩ := overlooks_newError name message (h.collect [])
  unfold scriptError
  generalize (w.collect []).newError name message = r at hn hw
  generalize (w'.collect []).newError name message = r' at hn hw
  obtain ⟨n, w₁⟩ := r
  obtain ⟨_, w₁'⟩ := r'
  cases hn
  obtain ⟨hv, hw⟩ := overlooks_wrap .bridge realm n hw
  exact ⟨congrArg Completion.thrown hv, hw⟩

theorem overlooks_hostError (realm : RealmId) (e : HostError) :
    Overlooks (E := E) (hostError realm e) := by
  cases e <;> exact overlooks_scriptError realm _ _

end

end ScriptSandbox.World
