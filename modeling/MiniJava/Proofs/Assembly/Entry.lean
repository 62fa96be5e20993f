import MiniJava.Proofs.Assembly.Frames
import MiniJava.Proofs.Lowering.Typing

/-! What is in the slots of a method when it starts. -/

namespace MiniJava.Assembly

open Code (Method)
open Lowering (method_head)
open Source (Declaration MethodDecl)

/-- The slots with which a method starts: its receiver and its parameters stand first, in their order,
and its locals stand where the frame puts them. -/
def entrySlots {α : Type} (m : MethodDecl) (frame : Frame) (receiver : α) (value : Declaration → α)
    (slot : Nat) : Option α :=
  let arguments := (if m.isStatic then [] else [receiver]) ++ m.parameters.map value
  arguments[slot]?.or
    ((m.locals.find? fun d => (frame.slot? d.name).map (·.toNat) = some slot).map value)

section

variable {α : Type} {m : MethodDecl} {frame : Frame} {receiver : α} {value : Declaration → α}

theorem entrySlots_receiver (hInstance : m.isStatic = false) :
    entrySlots m frame receiver value 0 = some receiver := by
  simp [entrySlots, hInstance]

/-- The parameters come next, in the order in which they are declared, so that the slot of each can be
told without the frame. -/
theorem entrySlots_parameter {place : Nat} {d : Declaration} (hPlace : m.parameters[place]? = some d) :
    entrySlots m frame receiver value ((if m.isStatic then 0 else 1) + place) = some (value d) := by
  have hArgument : ((if m.isStatic then [] else [receiver]) ++
      m.parameters.map value)[(if m.isStatic then 0 else 1) + place]? = some (value d) := by
    rw [List.getElem?_append_right (by split <;> simp), List.getElem?_map]
    have hSub : (if m.isStatic then 0 else 1) + place -
        (if m.isStatic then ([] : List α) else [receiver]).length = place := by
      split <;> simp
    rw [hSub, hPlace]
    rfl
  rw [entrySlots, hArgument]
  rfl

/-- Behind the parameters there are only locals, whose slots are found by their names. -/
theorem entrySlots_behind {slot : Nat}
    (hBehind : (if m.isStatic then 0 else 1) + m.parameters.length ≤ slot) :
    entrySlots m frame receiver value slot =
      (m.locals.find? fun d => (frame.slot? d.name).map (·.toNat) = some slot).map value := by
  have hLength : ((if m.isStatic then ([] : List α) else [receiver]) ++
      m.parameters.map value).length ≤ slot := by
    rw [List.length_append, List.length_map]
    split at hBehind <;> rename_i hStatic <;> simp [hStatic] <;> omega
  rw [entrySlots, List.getElem?_eq_none hLength]
  rfl

variable {symbols : Source.SymbolTable} {lowered : Method} {fresh fresh' : Lowering.Fresh}
  (h : (Lowering.method symbols m).run fresh = .ok lowered fresh')
  (hDistinct : (m.declarations.map (·.name)).Nodup)

include h

/-- The lowered method keeps one slot for its receiver exactly if the declared one is an instance
method. -/
theorem receiverSlots_method : lowered.receiverSlots = if m.isStatic then 0 else 1 := by
  rw [Method.receiverSlots, (method_head h).2.1]

include hDistinct

/-- In the order of first appearance the parameters come first and in the order of their declarations,
for their names are distinct. -/
theorem order_parameter {place : Nat} {d : Declaration} (hPlace : m.parameters[place]? = some d) :
    (Frame.order lowered)[place]? = some d.name := by
  obtain ⟨-, -, hParameters, -⟩ := method_head h
  have hNames : lowered.parameters.map (·.name) = m.parameters.map (·.name) := by
    rw [hParameters, List.map_map]
    rfl
  have hAppear : m.parameters.map (·.name) <+: Frame.order lowered := by
    rw [← hNames]
    refine Frame.parameters_prefix_order (hNames ▸ ?_)
    rw [MethodDecl.declarations, List.map_append] at hDistinct
    exact (List.nodup_append.mp hDistinct).1
  have hNameAt : (m.parameters.map (·.name))[place]? = some d.name := by
    rw [List.getElem?_map, hPlace]
    rfl
  obtain ⟨rest, hRest⟩ := hAppear
  rw [← hRest, List.getElem?_append_left (List.getElem?_eq_some_iff.mp hNameAt).1, hNameAt]

variable (hLays : Frame.Lays lowered.receiverSlots (Frame.order lowered) frame)

include hLays

/-- Only parameters have the slots that come first. Any other name is named later and has a later
slot. -/
theorem behind_of_not_parameter {name : String} {slot : UInt16} (hSlot : frame.slot? name = some slot)
    (hName : ∀ d ∈ m.parameters, d.name ≠ name) :
    (if m.isStatic then 0 else 1) + m.parameters.length ≤ slot.toNat := by
  obtain ⟨place, hPlace, hNumber, -⟩ := hLays.mem_of_slot hSlot
  rw [receiverSlots_method h] at hNumber
  by_contra hBefore
  have hInside : place < m.parameters.length := by omega
  have hSame := order_parameter h hDistinct (List.getElem?_eq_getElem hInside)
  rw [hPlace, Option.some.injEq] at hSame
  exact hName _ (List.getElem_mem hInside) hSame.symm

/-- A declared variable has its value in its slot when the method starts, whether it is a parameter or a
local. -/
theorem entrySlots_declared {d : Declaration} (hd : d ∈ m.declarations) {slot : UInt16}
    (hSlot : frame.slot? d.name = some slot) :
    entrySlots m frame receiver value slot.toNat = some (value d) := by
  have hOnly : ∀ other ∈ m.declarations, frame.slot? other.name = some slot → other = d :=
    fun other hOther hOtherSlot =>
      List.inj_on_of_nodup_map hDistinct hOther hd (hLays.injective hOtherSlot hSlot)
  rcases List.mem_append.mp hd with hParameter | hLocal
  · obtain ⟨place, hPlace⟩ := List.mem_iff_getElem?.mp hParameter
    have hNumber := hLays.number (order_parameter h hDistinct hPlace)
    rw [hSlot, Option.map_some, Option.some.injEq, receiverSlots_method h] at hNumber
    rw [hNumber]
    exact entrySlots_parameter hPlace
  · have hBehind := behind_of_not_parameter h hDistinct hLays hSlot fun other hOther hName => by
      rw [MethodDecl.declarations, List.map_append] at hDistinct
      exact (List.nodup_append.mp hDistinct).2.2 _ (List.mem_map_of_mem hOther) _
        (List.mem_map_of_mem hLocal) hName
    have hFound : m.locals.find? (fun d => (frame.slot? d.name).map (·.toNat) = some slot.toNat) =
        some d := by
      cases hFind : m.locals.find? fun d => (frame.slot? d.name).map (·.toNat) = some slot.toNat with
      | none =>
          have hNot := List.find?_eq_none.mp hFind d hLocal
          simp [hSlot] at hNot
      | some other =>
          have hHere := List.find?_some hFind
          rw [decide_eq_true_eq] at hHere
          obtain ⟨number, hNumber, hSame⟩ := Option.map_eq_some_iff.mp hHere
          obtain rfl : number = slot := UInt16.toNat_inj.mp hSame
          rw [hOnly other (List.mem_append_right _ (List.mem_of_find?_eq_some hFind)) hNumber]
    rw [entrySlots_behind hBehind, hFound]
    rfl

/-- Other variables have no values yet: they are temporaries, which are assigned before they are read. -/
theorem entrySlots_undeclared {name : String} (hName : name ∉ m.declarations.map (·.name))
    {slot : UInt16} (hSlot : frame.slot? name = some slot) :
    entrySlots m frame receiver value slot.toNat = none := by
  have hOther : ∀ d ∈ m.declarations, d.name ≠ name :=
    fun d hd hSame => hName (hSame ▸ List.mem_map_of_mem hd)
  have hBehind := behind_of_not_parameter h hDistinct hLays hSlot
    fun d hd => hOther d (List.mem_append_left _ hd)
  rw [entrySlots_behind hBehind, Option.map_eq_none_iff, List.find?_eq_none]
  intro d hd hSame
  obtain ⟨number, hNumber, hEq⟩ := Option.map_eq_some_iff.mp (of_decide_eq_true hSame)
  obtain rfl : number = slot := UInt16.toNat_inj.mp hEq
  exact hOther d (List.mem_append_right _ hd) (hLays.injective hNumber hSlot)

end

end MiniJava.Assembly
