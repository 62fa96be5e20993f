import MiniJava.Assembly.Frame
import Mathlib.Data.Set.Card
import Mathlib.Tactic.SplitIfs

/-!
The slots of a method, which are dealt out to names in the order of their first appearance.
-/

namespace MiniJava.Code

/-- The operand names a variable: as its value, as the array of an item, or in the place of one. Unlike
the list of names this says nothing of order. -/
inductive Operand.Mentions (name : String) : Operand → Prop
  | value (ty : Ty) : Mentions name (.variable name ty)
  | array (place : Operand) (ty : Ty) : Mentions name (.element name place ty)
  | place {array : String} {place : Operand} {ty : Ty} (h : Mentions name place) :
      Mentions name (.element array place ty)

/-- The instruction names a variable in one of its operands, or in its right-hand side. It may read the
variable or store into it. -/
inductive Instr.Mentions (name : String) : Instr → Prop
  | dest {dest : Operand} {ty : Ty} {rhs : Instr} (h : dest.Mentions name) :
      Mentions name (.assign dest ty rhs)
  | rhs {dest : Operand} {ty : Ty} {rhs : Instr} (h : Mentions name rhs) :
      Mentions name (.assign dest ty rhs)
  | operand {o : Operand} (h : o.Mentions name) : Mentions name (.operand o)
  | left {op : BinaryOp} {left right : Operand} {ty : Ty} (h : left.Mentions name) :
      Mentions name (.binary op left right ty)
  | right {op : BinaryOp} {left right : Operand} {ty : Ty} (h : right.Mentions name) :
      Mentions name (.binary op left right ty)
  | not {o : Operand} {ty : Ty} (h : o.Mentions name) : Mentions name (.not o ty)
  | ret {o : Operand} {ty : Ty} (h : o.Mentions name) : Mentions name (.ret (some o) ty)
  | getField {object : Operand} {field : String} {ty : Ty} (h : object.Mentions name) :
      Mentions name (.getField object field ty)
  | putObject {object value : Operand} {field : String} {ty : Ty} (h : object.Mentions name) :
      Mentions name (.putField object field ty value)
  | putValue {object value : Operand} {field : String} {ty : Ty} (h : value.Mentions name) :
      Mentions name (.putField object field ty value)
  | receiver {kind : CallKind} {receiver : Operand} {method : Option String}
      {arguments : List Operand} {ty : Ty} (h : receiver.Mentions name) :
      Mentions name (.call kind receiver method arguments ty)
  | argument {kind : CallKind} {receiver : Operand} {method : Option String}
      {arguments : List Operand} {ty : Ty} {o : Operand} (hArgument : o ∈ arguments)
      (h : o.Mentions name) : Mentions name (.call kind receiver method arguments ty)
  | test {o : Operand} {target : Label} (h : o.Mentions name) :
      Mentions name (.branch (.single o) target)
  | testLeft {op : BinaryOp} {left right : Operand} {target : Label} (h : left.Mentions name) :
      Mentions name (.branch (.compare op left right) target)
  | testRight {op : BinaryOp} {left right : Operand} {target : Label} (h : right.Mentions name) :
      Mentions name (.branch (.compare op left right) target)

/-- The variables of a method: its parameters, and what its code names. A local variable that no code
names is none of them. -/
inductive Method.Mentions (m : Method) (name : String) : Prop
  | parameter (v : Variable) (hParameter : v ∈ m.parameters) (hName : v.name = name)
  | body (i : Instr) (hInstr : i ∈ m.body) (hName : i.Mentions name)

variable {name : String}

/-- The names that the frame asks of an operand are just the ones that the operand mentions. -/
theorem Operand.mem_names {o : Operand} : name ∈ o.names ↔ o.Mentions name := by
  constructor
  · intro h
    induction o with
    | «variable» x ty =>
        obtain rfl := List.mem_singleton.mp h
        exact .value ty
    | element array place ty ih =>
        rcases List.mem_cons.mp h with rfl | hPlace
        · exact .array place ty
        · exact .place (ih hPlace)
    | literal | self | classRef => cases h
  · intro h
    induction h with
    | value ty => exact List.mem_singleton_self _
    | array place ty => exact List.mem_cons_self
    | place _ ih => exact List.mem_cons_of_mem _ ih

/-- The names that the frame asks of an instruction are just the ones that the instruction mentions;
labels and classes are not among them. -/
theorem Instr.mem_names {i : Instr} : name ∈ i.names ↔ i.Mentions name := by
  constructor
  · intro h
    induction i with
    | assign dest ty rhs ih =>
        rcases List.mem_append.mp h with hDest | hRhs
        · exact .dest (Operand.mem_names.mp hDest)
        · exact .rhs (ih hRhs)
    | operand o => exact .operand (Operand.mem_names.mp h)
    | binary op left right ty =>
        rcases List.mem_append.mp h with hLeft | hRight
        · exact .left (Operand.mem_names.mp hLeft)
        · exact .right (Operand.mem_names.mp hRight)
    | not o ty => exact .not (Operand.mem_names.mp h)
    | ret value ty =>
        cases value with
        | none => cases h
        | some o => exact .ret (Operand.mem_names.mp h)
    | getField object field ty => exact .getField (Operand.mem_names.mp h)
    | putField object field ty value =>
        rcases List.mem_append.mp h with hObject | hValue
        · exact .putObject (Operand.mem_names.mp hObject)
        · exact .putValue (Operand.mem_names.mp hValue)
    | call kind receiver method arguments ty =>
        rcases List.mem_append.mp h with hReceiver | hArguments
        · exact .receiver (Operand.mem_names.mp hReceiver)
        · obtain ⟨o, hArgument, hName⟩ := List.mem_flatMap.mp hArguments
          exact .argument hArgument (Operand.mem_names.mp hName)
    | branch condition target =>
        cases condition with
        | single o => exact .test (Operand.mem_names.mp h)
        | compare op left right =>
            rcases List.mem_append.mp h with hLeft | hRight
            · exact .testLeft (Operand.mem_names.mp hLeft)
            · exact .testRight (Operand.mem_names.mp hRight)
    | goto | label => cases h
  · intro h
    induction h with
    | dest h | left h | putObject h | receiver h | testLeft h =>
        exact List.mem_append_left _ (Operand.mem_names.mpr h)
    | rhs _ ih => exact List.mem_append_right _ ih
    | operand h | not h | ret h | getField h | test h => exact Operand.mem_names.mpr h
    | right h | putValue h | testRight h => exact List.mem_append_right _ (Operand.mem_names.mpr h)
    | argument hArgument h =>
        exact List.mem_append_right _ (List.mem_flatMap.mpr ⟨_, hArgument, Operand.mem_names.mpr h⟩)

/-- The names that are dealt slots are the variables of the method, each at its first appearance. -/
theorem Method.mem_names {m : Method} : name ∈ m.names ↔ m.Mentions name := by
  simp only [Method.names, List.mem_append, List.mem_map, List.mem_flatMap]
  constructor
  · rintro (⟨v, hParameter, hName⟩ | ⟨i, hInstr, hName⟩)
    · exact .parameter v hParameter hName
    · exact .body i hInstr (Instr.mem_names.mp hName)
  · rintro (⟨v, hParameter, hName⟩ | ⟨i, hInstr, hName⟩)
    · exact .inl ⟨v, hParameter, hName⟩
    · exact .inr ⟨i, hInstr, Instr.mem_names.mpr hName⟩

/-- The slots that no variable may have: that of the receiver, in an instance method, and none in a
static one. -/
def Method.receiverSlots (m : Method) : Nat := if m.isStatic then 0 else 1

/-- The number of slots that a method needs: one for the receiver, if it has one, and one for each
variable that it names. -/
noncomputable def Method.neededSlots (m : Method) : Nat :=
  m.receiverSlots + {name | m.Mentions name}.ncard

end MiniJava.Code

namespace MiniJava.Assembly

open Code (Method)

namespace Frame

/-- One more name, unless it is there. New names are added at the end, so earlier ones keep their
places. -/
def withName (names : List String) (name : String) : List String :=
  if name ∈ names then names else names ++ [name]

/-- Names that have been dealt slots keep their places when another one comes. -/
theorem prefix_withName (names : List String) (name : String) : names <+: withName names name := by
  unfold withName
  split_ifs
  · exact List.prefix_refl names
  · exact List.prefix_append names [name]

/-- However many names come later, those that were there keep their places. -/
theorem prefix_foldl (names more : List String) : names <+: more.foldl withName names := by
  induction more generalizing names with
  | nil => exact List.prefix_refl names
  | cons name rest ih => exact (prefix_withName names name).trans (ih (withName names name))

theorem mem_foldl {names more : List String} {name : String} :
    name ∈ more.foldl withName names ↔ name ∈ names ∨ name ∈ more := by
  induction more generalizing names with
  | nil => simp
  | cons first rest ih =>
      have hFirst : name ∈ withName names first ↔ name ∈ names ∨ name = first := by
        unfold withName
        split_ifs with hKnown
        · constructor
          · exact Or.inl
          · rintro (hMem | rfl)
            · exact hMem
            · exact hKnown
        · simp
      rw [List.foldl_cons, ih, hFirst, List.mem_cons, or_assoc]

theorem nodup_foldl {names more : List String} (h : names.Nodup) :
    (more.foldl withName names).Nodup := by
  induction more generalizing names with
  | nil => exact h
  | cons first rest ih =>
      refine ih ?_
      unfold withName
      split_ifs with hKnown
      · exact h
      · simpa [List.nodup_append, h] using fun a ha => (ne_of_mem_of_not_mem ha hKnown)

/-- Names that are all different and new are put behind the others in their order, as the parameters of a
method are. -/
theorem foldl_of_nodup {names more : List String} (h : (names ++ more).Nodup) :
    more.foldl withName names = names ++ more := by
  induction more generalizing names with
  | nil => simp
  | cons first rest ih =>
      have hNew : first ∉ names := fun hMem =>
        (List.nodup_append.mp h).2.2 first hMem first List.mem_cons_self rfl
      have hStep : withName names first = names ++ [first] := if_neg hNew
      rw [List.foldl_cons, hStep, ih (by simpa using h), List.append_assoc, List.singleton_append]

/-- The frame has given its slots, from `first` on, to these names in this order. The slot of a name is
then its place in the list. -/
structure Lays (first : Nat) (names : List String) (frame : Frame) : Prop where
  size : frame.size.toNat = first + names.length
  nodup : names.Nodup
  slot : ∀ {place name}, names[place]? = some name →
    frame.slot? name = some (.ofNat (first + place))
  absent : ∀ {name}, name ∉ names → frame.slot? name = none

namespace Lays

variable {first : Nat} {names : List String} {frame : Frame}

/-- The frame that a method begins with has laid no names, and keeps the first slot if there is a
receiver. -/
theorem empty (isStatic : Bool) : Lays (if isStatic then 0 else 1) [] (Frame.empty isStatic) where
  size := by cases isStatic <;> rfl
  nodup := List.nodup_nil
  slot := by simp
  absent := by simp [Frame.empty, Frame.slot?]

/-- A frame that has laid some names has slots for these names and no others, so asking the table is
asking the list. -/
theorem contains (h : Lays first names frame) (name : String) :
    frame.slots.contains name = true ↔ name ∈ names := by
  rw [Std.HashMap.contains_iff_mem, Std.HashMap.mem_iff_isSome_getElem?]
  constructor
  · intro hSome
    by_contra hNew
    have hNone : frame.slots[name]? = none := h.absent hNew
    rw [hNone] at hSome
    cases hSome
  · intro hMem
    obtain ⟨place, hPlace⟩ := List.mem_iff_getElem?.mp hMem
    have hSlot : frame.slots[name]? = _ := h.slot hPlace
    rw [hSlot]
    rfl

/-- Laying names never reaches the number of slots that sixteen bits can count. -/
theorem lt_size (h : Lays first names frame) : first + names.length < UInt16.size :=
  h.size ▸ frame.size.toNat_lt

/-- A new name takes the next slot, if there is one. All other names keep theirs. -/
theorem insert (h : Lays first names frame) {name : String} (hNew : name ∉ names)
    (hRoom : first + names.length + 1 < UInt16.size) :
    Lays first (names ++ [name]) ⟨frame.slots.insert name frame.size, frame.size + 1⟩ where
  size := by
    have hSize := h.size
    rw [UInt16.toNat_add, hSize, List.length_append, List.length_singleton]
    exact Nat.mod_eq_of_lt hRoom
  nodup := by
    simpa [List.nodup_append, h.nodup] using fun a ha => (ne_of_mem_of_not_mem ha hNew)
  slot := by
    intro place other hPlace
    have hSize : frame.size = .ofNat (first + names.length) := by
      rw [← h.size, UInt16.ofNat_toNat]
    change (frame.slots.insert name frame.size)[other]? = _
    rw [Std.HashMap.getElem?_insert]
    rcases Nat.lt_or_ge place names.length with hBefore | hLast
    · rw [List.getElem?_append_left hBefore] at hPlace
      have hOther : (name == other) = false :=
        beq_false_of_ne (ne_of_mem_of_not_mem (List.mem_of_getElem? hPlace) hNew).symm
      rw [hOther]
      exact h.slot hPlace
    · rw [List.getElem?_append_right hLast, List.getElem?_singleton] at hPlace
      split_ifs at hPlace with hZero
      obtain rfl := Option.some.inj hPlace
      rw [beq_self_eq_true, if_pos rfl, hSize]
      congr 2
      omega
  absent := by
    intro other hOther
    rw [List.mem_append, List.mem_singleton, not_or] at hOther
    change (frame.slots.insert name frame.size)[other]? = none
    rw [Std.HashMap.getElem?_insert, beq_false_of_ne (Ne.symm hOther.2)]
    exact h.absent hOther.1

/-- One name is added or found there, or there is no room for it, and then the names with it would need
more slots than sixteen bits can number. -/
theorem add (h : Lays first names frame) (name : String) :
    (∃ frame', frame.add name = .ok frame' ∧ Lays first (withName names name) frame') ∨
      (frame.add name = .error (.internal "too many local variables") ∧
        UInt16.size ≤ first + (withName names name).length) := by
  have hSize := h.size
  unfold Frame.add withName
  by_cases hKnown : name ∈ names
  · rw [if_pos ((h.contains name).mpr hKnown), if_pos hKnown]
    exact .inl ⟨frame, rfl, h⟩
  · have hNew : ¬frame.slots.contains name = true := fun hMem => hKnown ((h.contains name).mp hMem)
    rw [if_neg hNew, if_neg hKnown]
    by_cases hFull : frame.size.toNat + 1 = UInt16.size
    · rw [if_pos hFull]
      refine .inr ⟨rfl, ?_⟩
      rw [List.length_append, List.length_singleton]
      omega
    · rw [if_neg hFull]
      have hRoom := h.lt_size
      exact .inl ⟨_, rfl, h.insert hKnown (by omega)⟩

/-- Names are dealt slots until there are no more, and only then does it fail. Which of them is the one
too many does not show in the failure. -/
theorem foldlM_add (h : Lays first names frame) (more : List String) :
    (∃ frame', more.foldlM Frame.add frame = .ok frame' ∧
        Lays first (more.foldl withName names) frame') ∨
      (more.foldlM Frame.add frame = .error (.internal "too many local variables") ∧
        UInt16.size ≤ first + (more.foldl withName names).length) := by
  induction more generalizing names frame with
  | nil => exact .inl ⟨frame, rfl, h⟩
  | cons name rest ih =>
      rw [List.foldlM_cons, List.foldl_cons]
      rcases h.add name with ⟨frame₁, hAdd, hLays⟩ | ⟨hAdd, hFull⟩
      · rw [hAdd]
        exact ih hLays
      · rw [hAdd]
        have hGrows := (prefix_foldl (withName names name) rest).length_le
        exact .inr ⟨rfl, by omega⟩

/-- A slot that is found belongs to one of the names laid, and is numbered by the place of that name. -/
theorem mem_of_slot (h : Lays first names frame) {name : String} {slot : UInt16}
    (hSlot : frame.slot? name = some slot) :
    ∃ place, names[place]? = some name ∧ slot.toNat = first + place ∧ place < names.length := by
  have hMem : name ∈ names := by
    by_contra hNew
    rw [h.absent hNew] at hSlot
    cases hSlot
  obtain ⟨place, hPlace⟩ := List.mem_iff_getElem?.mp hMem
  obtain ⟨hInside, -⟩ := List.getElem?_eq_some_iff.mp hPlace
  refine ⟨place, hPlace, ?_, hInside⟩
  rw [h.slot hPlace, Option.some.injEq] at hSlot
  have hRoom := h.lt_size
  rw [← hSlot]
  exact UInt16.toNat_ofNat_of_lt' (by omega)

/-- The slot of a name is its place among the names laid, counted from the first slot. -/
theorem number (h : Lays first names frame) {place : Nat} {name : String}
    (hPlace : names[place]? = some name) :
    (frame.slot? name).map (·.toNat) = some (first + place) := by
  have hRoom := h.lt_size
  have hInside := (List.getElem?_eq_some_iff.mp hPlace).1
  rw [h.slot hPlace, Option.map_some, UInt16.toNat_ofNat_of_lt' (by omega)]

/-- No two names have the same slot. A store to one variable thus leaves all others as they are. -/
theorem injective (h : Lays first names frame) {a b : String} {slot : UInt16}
    (ha : frame.slot? a = some slot) (hb : frame.slot? b = some slot) : a = b := by
  obtain ⟨place, hPlace, hNumber, -⟩ := h.mem_of_slot ha
  obtain ⟨place', hPlace', hNumber', -⟩ := h.mem_of_slot hb
  obtain rfl : place = place' := by omega
  exact Option.some.inj (hPlace.symm.trans hPlace')

end Lays

/-- The names of a method in the order in which they first appear. This is the order of their slots. -/
def order (m : Method) : List String := m.names.foldl withName []

/-- Parameters come first, if their names are distinct, because a method names them before its body. -/
theorem parameters_prefix_order {m : Method} (hDistinct : (m.parameters.map (·.name)).Nodup) :
    m.parameters.map (·.name) <+: order m := by
  have hFirst : (m.parameters.map (·.name)).foldl withName [] = m.parameters.map (·.name) := by
    rw [foldl_of_nodup (by simpa using hDistinct), List.nil_append]
  rw [order, Method.names, List.foldl_append, hFirst]
  exact prefix_foldl _ _

/-- The order has one entry for each variable of the method, so that the slots needed can be counted
there. -/
theorem length_order (m : Method) : (order m).length = {name | m.Mentions name}.ncard := by
  have hSet : {name | m.Mentions name} = ↑(order m).toFinset := by
    ext name
    simp [order, mem_foldl, Code.Method.mem_names]
  have hNodup : (order m).Nodup := nodup_foldl List.nodup_nil
  rw [hSet, Set.ncard_coe_finset, List.toFinset_card_of_nodup hNodup]

/-- The frame of a method is there exactly if its names have room. The failure for want of room is the
only one. -/
theorem ofMethod_cases (m : Method) :
    (∃ frame, Frame.ofMethod m = .ok frame ∧ Lays m.receiverSlots (order m) frame ∧
        m.neededSlots < UInt16.size) ∨
      (Frame.ofMethod m = .error (.internal "too many local variables") ∧
        UInt16.size ≤ m.neededSlots) := by
  have hStart : Lays m.receiverSlots [] (Frame.empty m.isStatic) := Lays.empty m.isStatic
  have hLength : m.receiverSlots + (order m).length = m.neededSlots := by
    rw [length_order, Method.neededSlots]
  rcases hStart.foldlM_add m.names with ⟨frame, hFrame, hLays⟩ | ⟨hFrame, hFull⟩
  · exact .inl ⟨frame, hFrame, hLays, hLength ▸ hLays.lt_size⟩
  · exact .inr ⟨hFrame, hLength ▸ hFull⟩

/-- A frame that was built has laid the names of its method in their order, from behind the
receiver on. -/
theorem lays_of_ofMethod {m : Method} {frame : Frame} (h : Frame.ofMethod m = .ok frame) :
    Lays m.receiverSlots (order m) frame := by
  rcases ofMethod_cases m with ⟨_, hFrame, hLays, _⟩ | ⟨hFrame, _⟩
  · rw [h] at hFrame
    obtain rfl := Except.ok.inj hFrame
    exact hLays
  · rw [h] at hFrame
    cases hFrame

end Frame

end MiniJava.Assembly
