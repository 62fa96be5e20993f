import MiniJava.Proofs.Assembly.Balance

/-! Constructor calls in the code of a method: each of them follows the allocation of its object. -/

namespace MiniJava.Stack

/-- Code that calls no constructor. Almost all code is such; the exception is the call on a fresh
object. -/
def NoSpecial (code : List Instr) : Prop := ∀ i ∈ code, i.isSpecial = false

namespace NoSpecial

variable {code rest : List Instr}

theorem single {i : Instr} (h : i.isSpecial = false) : NoSpecial [i] := List.forall_mem_singleton.mpr h

theorem cons {i : Instr} (h : i.isSpecial = false) (hRest : NoSpecial rest) : NoSpecial (i :: rest) :=
  List.forall_mem_cons.mpr ⟨h, hRest⟩

/-- Constructor calls stand behind code that has none. So the first constructor call of the whole is the
first of the rest. -/
theorem split {before after : List Instr} {method : MethodRef} (hCode : NoSpecial code)
    (h : code ++ rest = before ++ .invoke .special method :: after) :
    ∃ middle, before = code ++ middle ∧ rest = middle ++ .invoke .special method :: after := by
  rcases List.append_eq_append_iff.mp h with hBehind | ⟨middle, rfl, hAfter⟩
  · exact hBehind
  · cases middle with
    | nil => exact ⟨[], by simp, hAfter.symm⟩
    | cons i middle =>
        obtain ⟨rfl, -⟩ := List.cons.inj hAfter
        cases hCode _ (List.mem_append_right _ List.mem_cons_self)

end NoSpecial

end MiniJava.Stack

namespace MiniJava.Assembly

open Code (Complete)
open Stack (NoSpecial)

section Selection

variable {site : Site} {p p' : Progress} {code : List Stack.Instr}

theorem isSpecial_storeSlot (kind : Stack.Kind) (slot : UInt16) :
    (Stack.storeSlot kind slot).isSpecial = false := by
  unfold Stack.storeSlot
  split_ifs <;> rfl

/-- Operations, accesses to slots and jumps are no constructor calls, so that only invocations remain to
be looked at. -/
theorem pervades_noSpecial (site : Site) : site.Pervades fun i => i.isSpecial = false where
  operates h := h.special
  reads kind _ slot _ := by
    unfold Stack.loadSlot
    split_ifs <;> rfl
  writes kind _ slot _ := isSpecial_storeSlot kind slot
  receiver _ := rfl

/-- A plain instruction is selected without constructor calls. Only the instruction behind an allocation
has one. -/
theorem noSpecial_instr {i : Code.Instr} (hPlain : i.isPlain = true)
    (h : (site.instr i).run p = .ok (code, p')) : NoSpecial code :=
  (pervades_noSpecial site).instr (fun _ hSpecial => hSpecial) (.inl hPlain) h

/-- Every constructor call of the code comes right after an object of its class was made and stored in
the slot of a variable. -/
def Constructs (site : Site) (code : List Stack.Instr) : Prop :=
  ∀ before method after, code = before ++ .invoke .special method :: after →
    ∃ earlier className name slot, site.slot name = .ok slot ∧
      before = earlier ++ [.new className, .dup, Stack.storeSlot .reference slot] ∧
      method = ⟨className, "<init>", [], "V"⟩

namespace Constructs

variable {first : List Stack.Instr}

/-- Code without constructor calls may stand before code whose constructor calls are in order, since each
of these looks back only as far as the allocation of its object. -/
theorem after (h : Constructs site code) (hFirst : NoSpecial first) :
    Constructs site (first ++ code) := by
  intro before method after hSplit
  obtain ⟨middle, rfl, hRest⟩ := hFirst.split hSplit
  obtain ⟨earlier, className, name, slot, hSlot, rfl, hMethod⟩ := h middle method after hRest
  exact ⟨first ++ earlier, className, name, slot, hSlot, (List.append_assoc _ _ _).symm, hMethod⟩

/-- An object that is made, stored and constructed, all of it without anything in between but the
store. -/
theorem object (h : Constructs site code) {className name : String} {slot : UInt16}
    (hSlot : site.slot name = .ok slot) :
    Constructs site ([.new className, .dup, Stack.storeSlot .reference slot] ++
      .invoke .special ⟨className, "<init>", [], "V"⟩ :: code) := by
  intro before method after hSplit
  have hStored : NoSpecial [.new className, .dup, Stack.storeSlot .reference slot] :=
    .cons rfl (.cons rfl (.single (isSpecial_storeSlot _ _)))
  obtain ⟨middle, rfl, hRest⟩ := hStored.split hSplit
  cases middle with
  | nil =>
      obtain ⟨hCall, -⟩ := List.cons.inj hRest
      obtain ⟨-, rfl⟩ := Stack.Instr.invoke.inj hCall
      exact ⟨[], className, name, slot, hSlot, List.append_nil _, rfl⟩
  | cons i middle =>
      obtain ⟨rfl, hBehind⟩ := List.cons.inj hRest
      obtain ⟨earlier, otherClass, other, otherSlot, hOther, rfl, hMethod⟩ := h middle method after hBehind
      refine ⟨[.new className, .dup, Stack.storeSlot .reference slot,
        .invoke .special ⟨className, "<init>", [], "V"⟩] ++ earlier, otherClass, other, otherSlot, hOther,
        ?_, hMethod⟩
      simp

end Constructs

/-- In the code of a body all constructor calls are in order. Only the pair of an allocation and its call
brings one in, as all other instructions of a body are plain. -/
theorem constructs_codeOf {source : List Code.Instr} (hComplete : Complete source)
    (hPending : p.pending = []) (h : (codeOf site source).run p = .ok (code, p')) :
    Constructs site code := by
  induction hComplete generalizing p code with
  | nil =>
      obtain ⟨rfl, -⟩ := codeOf_nil_run.mp h
      intro before method after hSplit
      simp at hSplit
  | @single i rest hPlain hRest ih =>
      obtain ⟨_, _, _, hFirst, hOthers, rfl⟩ := codeOf_cons_run.mp h
      exact (ih (moves_instr hPending hPlain hFirst).1 hOthers).after (noSpecial_instr hPlain hFirst)
  | @object name className rest hRest ih =>
      obtain ⟨_, _, _, hFirst, hTail, rfl⟩ := codeOf_cons_run.mp h
      obtain ⟨_, _, others, hSecond, hOthers, rfl⟩ := codeOf_cons_run.mp hTail
      obtain ⟨rfl, slot, instanceClass, hSlot, hClass, rfl⟩ := allocation_run hPending hFirst
      obtain ⟨rfl, instanceClass', hClass', rfl⟩ := construction_run rfl hSecond
      obtain rfl := Except.ok.inj (hClass.symm.trans hClass')
      exact (ih rfl hOthers).object hSlot

end Selection

end MiniJava.Assembly
