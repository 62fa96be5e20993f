import MiniJava.Proofs.Semantics.Behaviour
import Mathlib.Tactic.SplitIfs

/-! What actions may answer. Whatever is read from the heap or given back by the host is of the shape
asked for. -/

namespace MiniJava.Semantics

/-- The action may give this answer: in some world it does. What it does to the world is left out. -/
def Returns {α : Type} (x : Act α) (a : α) : Prop := ∃ w v, x.run w = .ok a v

namespace Returns

variable {α β : Type} {a : α} {b : β}

/-- What a sequence of two actions answers is an answer of the second one, to an answer of the first. -/
theorem of_bind {x : Act α} {f : α → Act β} (h : Returns (x >>= f) b) :
    ∃ a, Returns x a ∧ Returns (f a) b := by
  obtain ⟨w, v, hRun⟩ := h
  rw [EStateM.run_bind] at hRun
  cases hFirst : x.run w with
  | ok a w' =>
      rw [hFirst] at hRun
      exact ⟨a, ⟨w, w', hFirst⟩, w', v, hRun⟩
  | error stop w' =>
      rw [hFirst] at hRun
      cases hRun

theorem of_pure {a' : α} (h : Returns (pure a' : Act α) a) : a = a' := by
  obtain ⟨w, v, ⟨⟩⟩ := h
  rfl

theorem not_throw {stop : Stop} : ¬Returns (throw stop : Act α) a := by
  rintro ⟨w, v, ⟨⟩⟩

theorem of_map {x : Act α} {f : α → β} (h : Returns (x >>= fun a => pure (f a)) b) :
    ∃ a, Returns x a ∧ b = f a := by
  obtain ⟨a, hFirst, hLast⟩ := h.of_bind
  exact ⟨a, hFirst, hLast.of_pure⟩

end Returns

section

variable {v a : Value} {shape : Shape}

theorem holds_ofBool (b : Bool) : Shape.boolean.holds (.ofBool b) = true := by
  cases b <;> rfl

theorem truth_ofBool (b : Bool) : truth (.ofBool b) = pure b := by
  cases b <;> rfl

/-- Booleans are integers, too. -/
theorem int_of_holds (hShape : shape = .int ∨ shape = .boolean) (hv : shape.holds v = true) :
    ∃ n, v = .int n := by
  cases v with
  | int n => exact ⟨n, rfl⟩
  | ref address => rcases hShape with rfl | rfl <;> cases hv

theorem returns_checked (h : Returns (checked shape v) a) : shape.holds a = true := by
  unfold checked at h
  split_ifs at h with hShape
  · rwa [h.of_pure]
  · exact (Returns.not_throw h).elim

theorem returns_negate (h : Returns (negate v) a) : Shape.boolean.holds a = true := by
  obtain ⟨b, -, rfl⟩ := Returns.of_map h
  exact holds_ofBool _

theorem returns_allocate {cell : Cell} (h : Returns (allocate cell) a) : Shape.reference.holds a = true := by
  obtain ⟨w, v, ⟨⟩⟩ := h
  rfl

theorem returns_newIntArray (h : Returns (newIntArray v) a) : Shape.reference.holds a = true := by
  obtain ⟨n, -, hNew⟩ := h.of_bind
  unfold newArray at hNew
  split_ifs at hNew
  · exact (Returns.not_throw hNew).elim
  · exact returns_allocate hNew

theorem returns_arrayLength (h : Returns (arrayLength v) a) : Shape.int.holds a = true := by
  obtain ⟨address, -, hLength⟩ := h.of_bind
  obtain ⟨cell, -, hItems⟩ := hLength.of_bind
  cases cell with
  | object className fields => exact (Returns.not_throw hItems).elim
  | array found items =>
      rw [hItems.of_pure]
      rfl

theorem returns_readField {field : String} (h : Returns (readField v field shape) a) :
    shape.holds a = true := by
  obtain ⟨_, -, hObject⟩ := h.of_bind
  obtain ⟨_, -, hValue⟩ := hObject.of_bind
  exact returns_checked hValue

theorem returns_readItem {place : Value} (h : Returns (readItem v place shape) a) :
    shape.holds a = true := by
  obtain ⟨_, -, hPlace⟩ := h.of_bind
  obtain ⟨_, -, hAddress⟩ := hPlace.of_bind
  obtain ⟨_, -, hItems⟩ := hAddress.of_bind
  obtain ⟨_, -, hValue⟩ := hItems.of_bind
  exact returns_checked hValue

variable {setting : Setting} {method : String} {values : List Value}

/-- What the host gives back is checked, so that a result is of the shape that the call asks for. -/
theorem returns_perform {callee : Callee}
    (h : Returns (perform setting ⟨callee, method, values, some shape⟩) a) : shape.holds a = true := by
  obtain ⟨_, -, hRecord⟩ := h.of_bind
  obtain ⟨w, -, hAnswer⟩ := hRecord.of_bind
  cases hHost : setting.host.answer w ⟨callee, method, values, some shape⟩ with
  | none =>
      rw [hHost] at hAnswer
      exact (Returns.not_throw hAnswer).elim
  | some answer =>
      rw [hHost] at hAnswer
      obtain ⟨_, -, hValue⟩ := hAnswer.of_bind
      exact returns_checked hValue

theorem returns_callVirtual (h : Returns (callVirtual setting v method values (some shape)) a) :
    shape.holds a = true := by
  obtain ⟨_, -, hCall⟩ := h.of_bind
  exact returns_perform hCall

end

end MiniJava.Semantics
