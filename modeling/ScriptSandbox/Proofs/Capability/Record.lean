import ScriptSandbox.Session.Basic
import ScriptSandbox.Proofs.Capability.Custody

/-
  The custody of records.

  Records hand back what they hold and what they are called with, and take up nothing else but what
  is written to them. So a session of records keeps the values behind the bookmarks that its records
  hold (`Session.custody`).
-/

namespace ScriptSandbox

namespace HostValue

theorem targets_array (items : List HostValue) :
    (HostValue.array items).targets = items.flatMap HostValue.targets := by
  show (nativesOfAll items).filterMap Native.bookmarked? = _
  induction items with
  | nil => rfl
  | cons a rest ih =>
    rw [nativesOfAll, List.filterMap_append, ih, List.flatMap_cons]
    rfl

end HostValue

namespace Record

theorem mem_held_property {r : Record} {h : HostValue} (hh : h ∈ r.properties.entries.map (·.2)) :
    h ∈ r.held := by
  unfold held
  dsimp only
  split
  · exact List.mem_cons_of_mem _ (List.mem_append_left _ hh)
  · exact List.mem_append_left _ hh

theorem mem_held_primitive {r : Record} {h : HostValue} (hh : r.primitive? = some h) :
    h ∈ r.held := by
  have ho := List.mem_append_right (r.properties.entries.map (·.2)) (Option.mem_toList.mpr hh)
  unfold held
  dsimp only
  split
  · exact List.mem_cons_of_mem _ ho
  · exact ho

/-- With other properties a record holds those besides what it held. -/
theorem held_withProperties {r : Record} {t : Table HostValue} {h : HostValue}
    (hh : h ∈ Record.held { r with properties := t }) : h ∈ t.entries.map (·.2) ∨ h ∈ r.held := by
  have hconduct : Record.conduct? { r with properties := t } = r.conduct? := rfl
  have hprimitive : Record.primitive? { r with properties := t } = r.primitive? := rfl
  simp only [held, hconduct, hprimitive] at hh ⊢
  split at hh
  · rcases List.mem_cons.mp hh with rfl | hh
    · exact .inr List.mem_cons_self
    · rcases List.mem_append.mp hh with hh | hh
      · exact .inl hh
      · exact .inr (List.mem_cons_of_mem _ (List.mem_append_right _ hh))
  · rcases List.mem_append.mp hh with hh | hh
    · exact .inl hh
    · exact .inr (List.mem_append_right _ hh)

theorem held_define {r : Record} {name : String} {value h : HostValue}
    (hh : h ∈ (r.define name value).held) : h ∈ r.held ∨ h = value := by
  rcases held_withProperties hh with hh | hh
  · exact (Table.mem_write hh).imp_left mem_held_property
  · exact .inl hh

theorem held_set {r : Record} {name : String} {value h : HostValue}
    (hh : h ∈ (r.set name value).2.held) : h ∈ r.held ∨ h = value := by
  unfold Record.set at hh
  split at hh
  · exact .inl hh
  · exact .inl hh
  · split at hh
    · exact .inl hh
    · exact held_define hh

theorem held_delete {r : Record} {name : String} {h : HostValue}
    (hh : h ∈ (r.delete name).2.held) : h ∈ r.held := by
  unfold Record.delete at hh
  split at hh
  · exact hh
  · exact hh
  · split at hh
    · exact hh
    · rcases held_withProperties hh with hh | hh
      · exact mem_held_property (Table.mem_erase hh)
      · exact hh

theorem held_call {r : Record} {receiver : HostValue} {args : List HostValue} {h : HostValue}
    (hh : h ∈ (r.call receiver args).2.held) : h ∈ r.held ∨ h = .array args := by
  unfold Record.call at hh
  split at hh <;> first | exact .inl hh | exact held_define hh

/-- What a record hands back it holds, or it was called with it. -/
theorem get_held {r : Record} {name : String} {h : HostValue} (hr : r.get name = .ok h) :
    h ∈ r.held ∨ h = .undefined := by
  unfold Record.get at hr
  split at hr
  · cases hr
  · cases hr
    cases hp : r.properties.find? name with
    | none => exact .inr rfl
    | some v => exact .inl (mem_held_property (Table.mem_of_lookup hp))

theorem call_held {r : Record} {receiver : HostValue} {args : List HostValue} {h : HostValue}
    (hr : (r.call receiver args).1 = .ok h) :
    h ∈ r.held ∨ h = receiver ∨ h = .array args ∨ h = .undefined := by
  unfold Record.call at hr
  split at hr
  · cases hr
  · next v hv =>
    cases hr
    simp only [held, hv]
    exact .inl List.mem_cons_self
  · cases hr
    exact .inr (.inl rfl)
  · cases hr
    exact .inr (.inr (.inl rfl))
  · cases hr
    exact .inr (.inr (.inr rfl))
  · cases hr

end Record

namespace Session

/-- The values behind the bookmarks that the records of a session hold. -/
def Keeps (s : Session) (t : Value) : Prop := ∃ id, ∃ h ∈ (s.record id).held, t ∈ h.targets

theorem keeps_onRecord {α : Type} {id : HostId} {f : Record → α × Record} {s : Session} {t : Value}
    (h : Keeps (onRecord id f s).2 t) :
    Keeps s t ∨ ∃ h ∈ (f (s.record id)).2.held, t ∈ h.targets := by
  obtain ⟨host, a, ha, ht⟩ := h
  rw [record_onRecord] at ha
  split at ha
  · next hid => exact .inr ⟨a, hid.1 ▸ ha, ht⟩
  · exact .inl ⟨host, a, ha, ht⟩

theorem targets_of_args {args : List HostValue} {t : Value}
    (h : t ∈ (HostValue.array args).targets) : ∃ a ∈ args, t ∈ a.targets := by
  rw [HostValue.targets_array] at h
  exact List.mem_flatMap.mp h

/-- Records have no bookmarks but those that they were given. -/
def custody : Custody Session where
  keeps := Keeps
  get _ _ _ h := h
  got := by
    intro s id name h t hr ht
    rcases Record.get_held hr with hh | rfl
    · exact ⟨id, h, hh, ht⟩
    · cases ht
  set := by
    intro s id name value t h
    rcases keeps_onRecord h with h | ⟨a, ha, ht⟩
    · exact .inl h
    · rcases Record.held_set ha with ha | rfl
      · exact .inl ⟨id, a, ha, ht⟩
      · exact .inr ht
  delete := by
    intro s id name t h
    rcases keeps_onRecord h with h | ⟨a, ha, ht⟩
    · exact h
    · exact ⟨id, a, Record.held_delete ha, ht⟩
  call := by
    intro s id receiver args t h
    rcases keeps_onRecord h with h | ⟨a, ha, ht⟩
    · exact .inl h
    · rcases Record.held_call ha with ha | rfl
      · exact .inl ⟨id, a, ha, ht⟩
      · exact .inr (.inr (targets_of_args ht))
  returned := by
    intro s id receiver args h t hr ht
    rcases Record.call_held hr with hh | rfl | rfl | rfl
    · exact .inl ⟨id, h, hh, ht⟩
    · exact .inr (.inl ht)
    · exact .inr (.inr (targets_of_args ht))
    · cases ht
  primitive _ _ h := h
  formed := by
    intro s id h t hr ht
    exact ⟨id, h, Record.mem_held_primitive hr, ht⟩

end Session

end ScriptSandbox
