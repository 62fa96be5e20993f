import MiniJava.Proofs.Assembly.Frames
import MiniJava.Proofs.Assembly.Slots
import MiniJava.Proofs.Semantics.Answers
import MiniJava.Proofs.Semantics.Stack

/-! What pieces of stack code do, in whatever code they stand. -/

namespace MiniJava.Semantics.Stack

open MiniJava.Stack

variable {setting : Setting} {code : List Instr} {rest : List Instr} {stack : List Value}
  {slots : Nat → Option Value} {w : World}

/-- Whether control goes on to the next instruction, whatever there is on the stack. A label is plain
too, since it does nothing. -/
def isPlain : Instr → Bool
  | .ifZero _ _ | .ifInts _ _ | .goto _ | .retValue _ | .ret => false
  | _ => true

/-- A step over an instruction that goes on is what the instruction does to the store. -/
theorem step_plain {i : Instr} (hPlain : isPlain i = true) (store : Store) :
    step setting code ⟨i :: rest, store⟩ =
      act setting i store >>= fun store' => pure (.goOn ⟨rest, store'⟩) := by
  cases i <;> first | rfl | cases hPlain

/-- A constant is pushed with exactly its value, whichever of the five instructions is the shortest for
it. -/
theorem step_pushInt (n : Int32) :
    step setting code ⟨pushInt n :: rest, ⟨stack, slots⟩⟩ =
      pure (.goOn ⟨rest, ⟨.int n :: stack, slots⟩⟩) := by
  have hSame {m : Int32} (h : m.toInt = n.toInt) :
      (pure (.goOn ⟨rest, ⟨.int m :: stack, slots⟩⟩) : Act (Next State)) =
        pure (.goOn ⟨rest, ⟨.int n :: stack, slots⟩⟩) := by
    rw [Int32.toInt_inj.mp h]
  unfold pushInt
  dsimp only
  split_ifs with hMinusOne hShort hByte hWord
  · exact hSame hMinusOne.symm
  · refine hSame ?_
    have hNat : (UInt8.ofNat n.toInt.toNat).toNat = n.toInt.toNat :=
      UInt8.toNat_ofNat_of_lt' (by rw [show UInt8.size = 256 from rfl]; omega)
    rw [hNat, Int32.toInt_ofNat_of_lt (by omega)]
    omega
  · refine hSame ?_
    rw [Int8.toInt_toInt32, Int8.toInt_ofInt_of_le (by omega) (by omega)]
  · refine hSame ?_
    rw [Int16.toInt_toInt32, Int16.toInt_ofInt_of_le (by omega) (by omega)]
  · rfl

/-- A boolean is negated by its last bit. For an integer that is no boolean this would be wrong, and
types exclude it. -/
theorem act_negate {v : Value} (hBoolean : Shape.boolean.holds v = true) :
    act setting (.arithmetic .xor) ⟨.int 1 :: v :: stack, slots⟩ =
      negate v >>= fun a => pure ⟨a :: stack, slots⟩ := by
  obtain ⟨n, rfl⟩ := int_of_holds (.inr rfl) hBoolean
  have hBit : n = 0 ∨ n = 1 := by simpa [Shape.holds] using hBoolean
  rcases hBit with rfl | rfl <;> rfl

theorem step_loadSlot {kind : Kind} {slot : UInt16} {v : Value} (hSlot : slots slot.toNat = some v)
    (hKind : (Shape.ofKind kind).holds v = true) :
    step setting code ⟨loadSlot kind slot :: rest, ⟨stack, slots⟩⟩ =
      pure (.goOn ⟨rest, ⟨v :: stack, slots⟩⟩) := by
  have hLoad : load kind slot.toNat ⟨stack, slots⟩ = pure ⟨v :: stack, slots⟩ := by
    rw [load]
    dsimp only
    rw [hSlot]
    dsimp only
    rw [checked, if_pos hKind, pure_bind]
  unfold loadSlot
  split_ifs with hShort
  · rw [step_plain rfl, act, toNat_short hShort, hLoad, pure_bind]
  · rw [step_plain rfl, act, hLoad, pure_bind]

theorem step_loadSlot_none {kind : Kind} {slot : UInt16} (hSlot : slots slot.toNat = none) :
    step setting code ⟨loadSlot kind slot :: rest, ⟨stack, slots⟩⟩ = throw .stuck := by
  have hLoad : load kind slot.toNat ⟨stack, slots⟩ = throw .stuck := by
    rw [load]
    dsimp only
    rw [hSlot]
  unfold loadSlot
  split_ifs with hShort
  · rw [step_plain rfl, act, toNat_short hShort, hLoad]
    rfl
  · rw [step_plain rfl, act, hLoad]
    rfl

/-- Storing takes the value from the stack into the slot and changes no other slot. The value must be of
the kind of the instruction. -/
theorem step_storeSlot {kind : Kind} {slot : UInt16} {v : Value}
    (hKind : (Shape.ofKind kind).holds v = true) :
    step setting code ⟨storeSlot kind slot :: rest, ⟨v :: stack, slots⟩⟩ =
      pure (.goOn ⟨rest, ⟨stack, Function.update slots slot.toNat (some v)⟩⟩) := by
  have hKeep : keep kind slot.toNat ⟨v :: stack, slots⟩ =
      pure ⟨stack, Function.update slots slot.toNat (some v)⟩ := by
    rw [keep, checked, if_pos hKind, pure_bind]
  unfold storeSlot
  split_ifs with hShort
  · rw [step_plain rfl, act, toNat_short hShort, hKeep, pure_bind]
  · rw [step_plain rfl, act, hKeep, pure_bind]

/-- Jumps go to the one place where their label stands. That it is one is what distinct labels are
for. -/
theorem afterLabel?_of_suffix {name : String} (hNodup : (Stack.labels code).Nodup)
    (hSuffix : (.label name :: rest) <:+ code) :
    afterLabel? name code = some (.label name :: rest) := by
  obtain ⟨front, rfl⟩ := hSuffix
  induction front with
  | nil => simp [afterLabel?]
  | cons i front ih =>
      have hOther : i ≠ .label name := by
        rintro rfl
        simp [Instr.label?] at hNodup
      have hRest : (Stack.labels (front ++ .label name :: rest)).Nodup := by
        refine List.Nodup.sublist ?_ hNodup
        exact List.Sublist.filterMap _ (List.sublist_cons_self i _)
      rw [List.cons_append, afterLabel?, if_neg hOther]
      exact ih hRest

theorem jump_of_suffix {name : String} {store : Store} (hNodup : (Stack.labels code).Nodup)
    (hSuffix : (.label name :: rest) <:+ code) :
    jump code store name = pure (.goOn ⟨.label name :: rest, store⟩) := by
  rw [jump, afterLabel?_of_suffix hNodup hSuffix]

section

variable {values : List Value} {method : MethodRef} {receiver : Value}

theorem arguments_reverse : arguments values.length (values.reverse ++ stack) = pure (values, stack) := by
  have hTake : (values.reverse ++ stack).take values.length = values.reverse := by
    rw [← List.length_reverse, List.take_left]
  have hDrop : (values.reverse ++ stack).drop values.length = stack := by
    rw [← List.length_reverse, List.drop_left]
  have hLe : values.length ≤ (values.reverse ++ stack).length := by simp
  rw [arguments, if_pos hLe, hTake, hDrop, List.reverse_reverse]

/-- The stack after a call, which may push what it gives back. The operands of the call are gone
already. -/
def answered (pushes : Bool) (v : Value) (stack : List Value) : List Value :=
  if pushes then v :: stack else stack

variable (hLength : values.length = method.parameters.length)

include hLength

/-- A static invocation asks the host with the class of the method, without a receiver. -/
theorem invoke_static :
    invoke setting .static method ⟨values.reverse ++ stack, slots⟩ =
      perform setting ⟨.static method.className, method.name, values, result? method⟩ >>= fun v =>
        pure ⟨answered method.returnsValue v stack, slots⟩ := by
  rw [invoke, call, ← hLength, arguments_reverse, pure_bind]
  dsimp only
  rw [bind_assoc]
  simp only [pure_bind]
  rfl

theorem invoke_virtual :
    invoke setting .virtual method ⟨values.reverse ++ receiver :: stack, slots⟩ =
      callVirtual setting receiver method.name values (result? method) >>= fun v =>
        pure ⟨answered method.returnsValue v stack, slots⟩ := by
  rw [invoke, call, ← hLength, arguments_reverse, pure_bind]
  dsimp only
  rw [bind_assoc]
  simp only [pure_bind]
  rfl

/-- A special invocation finds its receiver in the same place, but asks for just this method of its
class. -/
theorem invoke_special :
    invoke setting .special method ⟨values.reverse ++ receiver :: stack, slots⟩ =
      callSpecial setting receiver method.name values (result? method) >>= fun v =>
        pure ⟨answered method.returnsValue v stack, slots⟩ := by
  rw [invoke, call, ← hLength, arguments_reverse, pure_bind]
  dsimp only
  rw [bind_assoc]
  simp only [pure_bind]
  rfl

end

/-- Wherever it stands in `body`, the code goes along with the action, and it leaves what `last` says
of the action's answer. -/
def Runs {α : Type} (setting : Setting) (body code : List Instr) (first : Store) (x : Act α)
    (last : α → Store) : Prop :=
  ∀ rest w, (code ++ rest) <:+ body → Comes (step setting body) ⟨code ++ rest, first⟩ w (x.run w)
    fun t v => ∃ a, x.run w = .ok a v ∧ t = ⟨rest, last a⟩

section

variable {α β : Type} {body others : List Instr} {first : Store} {x : Act α}

namespace Runs

theorem nil {last : α → Store} (a : α) (h : last a = first) : Runs setting body [] first (pure a) last :=
  fun _ _ _ => .here ⟨a, rfl, h ▸ rfl⟩

theorem ofStep {i : Instr} {last : α → Store}
    (h : ∀ rest, step setting body ⟨i :: rest, first⟩ = x >>= fun a => pure (.goOn ⟨rest, last a⟩)) :
    Runs setting body [i] first x last := fun rest _ _ => .ofStep (h rest)

theorem ofAct {i : Instr} {last : α → Store} (hPlain : isPlain i = true)
    (h : act setting i first = x >>= fun a => pure (last a)) : Runs setting body [i] first x last :=
  .ofStep fun rest => by
    rw [step_plain hPlain, h, bind_assoc]
    simp only [pure_bind]

/-- An instruction that does nothing but change the store. -/
theorem after {i : Instr} {middle : Store} {last : α → Store}
    (hStep : ∀ rest, step setting body ⟨i :: rest, first⟩ = pure (.goOn ⟨rest, middle⟩))
    (hCode : Runs setting body code middle x last) : Runs setting body (i :: code) first x last := by
  intro rest w hSuffix
  have hFirst : (step setting body ⟨i :: (code ++ rest), first⟩).run w =
      .ok (.goOn ⟨code ++ rest, middle⟩) w := by
    rw [hStep]
    rfl
  exact .after (.single hFirst) (hCode rest w ((List.suffix_cons i _).trans hSuffix))

/-- Code that is stuck at its first instruction; what would come behind it does not matter, and the stop
is that of the action. -/
theorem throw {i : Instr} {stop : Stop} {last : α → Store}
    (hStep : ∀ rest, step setting body ⟨i :: rest, first⟩ = throw stop) :
    Runs setting body (i :: code) first (throw stop) last := by
  intro rest w _
  refine .inr ⟨stop, w, rfl, .stopped ?_⟩
  rw [List.cons_append, hStep]
  rfl

/-- One piece of code after the other, and one action after the other. The second may depend on the
answer of the first. -/
theorem append {middle : α → Store} {f : α → Act β} {last : β → Store}
    (hCode : Runs setting body code first x middle)
    (hOthers : ∀ a, Returns x a → Runs setting body others (middle a) (f a) last) :
    Runs setting body (code ++ others) first (x >>= f) last := by
  intro rest w hSuffix
  rw [List.append_assoc] at hSuffix ⊢
  have hFirst : Comes (step setting body) ⟨code ++ (others ++ rest), first⟩ w (x.run w) fun t v =>
      ∃ a, x.run w = .ok a v ∧ (Returns x a ∧ t = ⟨others ++ rest, middle a⟩) := by
    refine (hCode _ w hSuffix).mono ?_
    rintro t v ⟨a, hRun, hThere⟩
    exact ⟨a, hRun, ⟨w, v, hRun⟩, hThere⟩
  refine Comes.andThen (Q := fun r t v => ∃ b, r = .ok b v ∧ t = ⟨rest, last b⟩) hFirst ?_
  rintro a t v ⟨hReturns, rfl⟩
  exact hOthers a hReturns rest v ((List.suffix_append code _).trans hSuffix)

/-- An answer that is only looked at in another way. -/
theorem map {g : α → β} {last : β → Store} (h : Runs setting body code first x fun a => last (g a)) :
    Runs setting body code first (x >>= fun a => pure (g a)) last := by
  rw [← List.append_nil code]
  exact h.append fun a _ => .nil (g a) rfl

/-- The same action, told in another way. -/
theorem of_eq {y : Act α} {last : α → Store} (h : Runs setting body code first y last) (hSame : x = y) :
    Runs setting body code first x last := hSame ▸ h

theorem pushInt (n : Int32) :
    Runs setting body [Stack.pushInt n] ⟨stack, slots⟩ (pure (.int n)) fun v => ⟨v :: stack, slots⟩ :=
  .ofStep fun _ => by rw [step_pushInt, pure_bind]

end Runs

/-- A new object is on the stack and in its slot, twice the same reference. -/
theorem runs_newObject (className : String) (slot : UInt16) :
    Runs setting body [.new className, .dup, Stack.storeSlot .reference slot] ⟨stack, slots⟩
      (newObject className)
      fun v => ⟨v :: stack, Function.update slots slot.toNat (some v)⟩ := by
  have hNew : Runs setting body ([.new className] ++ [.dup, Stack.storeSlot .reference slot])
      ⟨stack, slots⟩ (newObject className >>= pure)
      fun v => ⟨v :: stack, Function.update slots slot.toNat (some v)⟩ := by
    have hFirst : Runs setting body [.new className] ⟨stack, slots⟩ (newObject className)
        fun v => ⟨v :: stack, slots⟩ := .ofAct rfl rfl
    refine hFirst.append fun v hv => ?_
    have hLast : Runs setting body [Stack.storeSlot .reference slot] ⟨v :: v :: stack, slots⟩ (pure v)
        fun v => ⟨v :: stack, Function.update slots slot.toNat (some v)⟩ :=
      .after (fun _ => step_storeSlot (returns_allocate hv)) (.nil v rfl)
    exact .after (fun _ => rfl) hLast
  exact hNew.of_eq (bind_pure _).symm

/-- Making an object takes three steps; afterwards it is in its slot and on the stack, at the next free
address. -/
theorem reaches_newObject (className : String) (slot : UInt16) :
    Reaches (step setting body) 3
      ⟨.new className :: .dup :: Stack.storeSlot .reference slot :: rest, ⟨stack, slots⟩⟩ w
      ⟨rest, ⟨.ref (some w.heap.length) :: stack,
        Function.update slots slot.toNat (some (.ref (some w.heap.length)))⟩⟩
      ⟨w.heap ++ [.object className []], w.trace⟩ := by
  have hStore {w : World} {v : Value} (hv : (Shape.ofKind .reference).holds v = true) :
      (step setting body ⟨Stack.storeSlot .reference slot :: rest, ⟨v :: v :: stack, slots⟩⟩).run w =
        .ok (.goOn ⟨rest, ⟨v :: stack, Function.update slots slot.toNat (some v)⟩⟩) w := by
    rw [step_storeSlot hv]
    rfl
  exact .succ rfl (.succ rfl (.succ (hStore rfl) (.zero _ _)))

/-- A constructor call takes the object from the stack and leaves nothing, since its descriptor has no
result. -/
theorem step_init (className : String) (v : Value) :
    step setting body ⟨.invoke .special ⟨className, "<init>", [], "V"⟩ :: rest, ⟨v :: stack, slots⟩⟩ =
      callSpecial setting v "<init>" [] none >>= fun _ => pure (.goOn ⟨rest, ⟨stack, slots⟩⟩) := by
  have hInvoke : invoke setting .special ⟨className, "<init>", [], "V"⟩ ⟨[].reverse ++ v :: stack, slots⟩ =
      callSpecial setting v "<init>" [] none >>= fun _ => pure ⟨stack, slots⟩ := invoke_special rfl
  have hAct : act setting (.invoke .special ⟨className, "<init>", [], "V"⟩) ⟨v :: stack, slots⟩ =
      callSpecial setting v "<init>" [] none >>= fun _ => pure ⟨stack, slots⟩ := hInvoke
  rw [step_plain rfl, hAct, bind_assoc]
  simp only [pure_bind]

/-- The constructor call is one step, and what the host answers to it is not kept. -/
theorem runs_init (className : String) (v : Value) :
    Runs setting body [.invoke .special ⟨className, "<init>", [], "V"⟩] ⟨v :: stack, slots⟩
      (callSpecial setting v "<init>" [] none) fun _ => ⟨stack, slots⟩ :=
  .ofStep fun _ => step_init className v

/-- A comparison of two integers turned into a value yields one if it holds, and zero otherwise. -/
theorem reaches_comparisonCode (hNodup : (Stack.labels body).Nodup) (comparison : Comparison)
    {labels : String × String} (hSuffix : (Assembly.Site.comparisonCode comparison labels ++ rest) <:+ body)
    (a b : Int32) :
    ∃ n, Reaches (step setting body)
      n ⟨Assembly.Site.comparisonCode comparison labels ++ rest, ⟨.int b :: .int a :: stack, slots⟩⟩ w
      ⟨rest, ⟨.ofBool (compare comparison a b) :: stack, slots⟩⟩ w := by
  obtain ⟨yes, stop⟩ := labels
  have hWhole : ([Instr.ifInts comparison yes, Stack.pushInt 0, .goto stop] ++
      .label yes :: Stack.pushInt 1 :: .label stop :: rest) <:+ body := hSuffix
  have hYes : (.label yes :: Stack.pushInt 1 :: .label stop :: rest) <:+ body :=
    (List.suffix_append _ _).trans hWhole
  have hStop : (.label stop :: rest) <:+ body :=
    (List.suffix_append [Instr.label yes, Stack.pushInt 1] _).trans hYes
  have hTest : step setting body
      ⟨Assembly.Site.comparisonCode comparison (yes, stop) ++ rest, ⟨.int b :: .int a :: stack, slots⟩⟩ =
        if compare comparison a b then
          pure (.goOn ⟨.label yes :: Stack.pushInt 1 :: .label stop :: rest, ⟨stack, slots⟩⟩)
        else pure (.goOn ⟨Stack.pushInt 0 :: .goto stop :: .label yes :: Stack.pushInt 1 ::
          .label stop :: rest, ⟨stack, slots⟩⟩) := by
    rw [← jump_of_suffix hNodup hYes]
    rfl
  have hLabel {name : String} {rest : List Instr} {store : Store} :
      (step setting body ⟨.label name :: rest, store⟩).run w = .ok (.goOn ⟨rest, store⟩) w := rfl
  have hPush {n : Int32} {rest : List Instr} :
      (step setting body ⟨Stack.pushInt n :: rest, ⟨stack, slots⟩⟩).run w =
        .ok (.goOn ⟨rest, ⟨.int n :: stack, slots⟩⟩) w := by
    rw [step_pushInt]
    rfl
  have hSkip {rest' : List Instr} {store : Store} :
      (step setting body ⟨.goto stop :: rest', store⟩).run w =
        .ok (.goOn ⟨.label stop :: rest, store⟩) w := by
    change (jump body store stop).run w = _
    rw [jump_of_suffix hNodup hStop]
    rfl
  cases hHolds : compare comparison a b with
  | true =>
      rw [hHolds, if_pos rfl] at hTest
      exact ⟨_, .succ (congrArg (·.run w) hTest) (.succ hLabel (.succ hPush (.succ hLabel (.zero _ _))))⟩
  | false =>
      rw [hHolds, if_neg Bool.false_ne_true] at hTest
      exact ⟨_, .succ (congrArg (·.run w) hTest) (.succ hPush (.succ hSkip (.succ hLabel (.zero _ _))))⟩

end

end MiniJava.Semantics.Stack
