import MiniJava.Proofs.Lowering.Temporaries
import MiniJava.Proofs.Semantics.Regions

/-!
In which order an assignment to an item of an array calls methods, divides and reads the heap. The
code of the value comes before that of the array and of the place; but a call, a division or a read
that is the value itself is left to the store, and so comes after them.
-/

namespace MiniJava.Code

/-- Whether the instruction calls a method, divides or reads the heap. A new array or object is
neither read nor called. -/
def Instr.acts : Instr → Bool
  | .assign (.element _ place _) _ rhs => place.isElement || rhs.acts
  | .assign _ _ rhs => rhs.acts
  | .operand o | .not o _ | .ret (some o) _ => o.isElement
  | .binary op left right _ => op = .div || left.isElement || right.isElement
  | .getField _ _ _ => true
  | .putField object _ _ value => object.isElement || value.isElement
  | .call kind receiver _ arguments _ =>
      kind ≠ .new || receiver.isElement || arguments.any Operand.isElement
  | .branch (.single o) _ => o.isElement
  | .branch (.compare op left right) _ => op = .div || left.isElement || right.isElement
  | .ret none _ | .goto _ | .label _ => false

end MiniJava.Code

namespace MiniJava.Source

/-- Whether the last thing that an expression does is to call a method, to divide, or to read an item
or the length of an array. -/
def Expr.actsLast (e : Expr) : Bool :=
  match e.bare with
  | .call _ _ _ _ | .index _ _ _ | .binary .div _ _ _ => true
  | _ => false

end MiniJava.Source

namespace MiniJava.Lowering

open Code (Instr Operand)
open Semantics (Setting World)
open Semantics.Code (Meets Region)
open Source (Expr)

variable {scope : Scope} {fresh fresh' : Fresh}

theorem isElement_of_settled {next : Nat} {o : Operand} (h : Settled scope next o) :
    o.isElement = false := by
  cases o with
  | element array place ty => exact h.elim
  | _ => rfl

theorem operand_isElement {e : Expr} {o : Operand} {code : List Instr}
    (h : (operand scope e).run fresh = .ok (o, code) fresh') : o.isElement = false :=
  isElement_of_settled (operand_settled h)

theorem value_of_stays {value : Instr} {code : List Instr} {l : Lowered}
    (h : (finish scope true value code).run fresh = .ok l fresh') : l.value = value := by
  rcases finish_run.mp h with ⟨-, rfl, -⟩ | ⟨hStay, -⟩
  · rfl
  · cases hStay

/-- What a right-hand side does last is left to the instruction that yields its value. Whether it does
anything last can be told from the expression alone. -/
theorem acts_value {e : Expr} {l : Lowered}
    (h : (expr scope e .assignRhs).run fresh = .ok l fresh') : l.value.acts = e.actsLast := by
  induction e generalizing fresh with
  | intLiteral value | boolLiteral value | self ty =>
      obtain ⟨rfl, rfl⟩ := run_pure_ok.mp h
      rfl
  | ident name ty =>
      rcases identifier_run.mp h with ⟨_, _, rfl, _⟩ | ⟨_, _, _, hFinish⟩ | ⟨_, _, _, rfl, _⟩
      · rfl
      · rcases finish_run.mp hFinish with ⟨hPlain, -⟩ | ⟨-, _, -, rfl⟩
        · cases hPlain
        · rfl
      · rfl
  | index base place ty =>
      obtain ⟨_, _, _, _, _, _, _, _, _, _, hFinish⟩ := expr_index_run.mp h
      rw [value_of_stays hFinish]
      rfl
  | paren inner ih => exact ih h
  | not operand =>
      obtain ⟨o, _, _, hLower, hFinish⟩ := expr_not_run.mp h
      rw [value_of_stays hFinish]
      exact operand_isElement hLower
  | newArray size =>
      obtain ⟨o, _, _, hLower, hFinish⟩ := expr_newArray_run.mp h
      rw [value_of_stays hFinish, newIntArray, Instr.acts, List.any_cons, operand_isElement hLower]
      rfl
  | newObject className =>
      obtain ⟨_, _, rfl⟩ := expr_newObject_run.mp h
      rfl
  | arrayLiteral elements =>
      obtain ⟨_, _, _, _, _, _, _, _, rfl⟩ := expr_arrayLiteral_run.mp h
      rfl
  | binary op left right ty =>
      by_cases hOp : op = .and
      · subst hOp
        obtain ⟨_, _, _, _, _, _, _, _, _, _, _, _, _, rfl⟩ := expr_and_run.mp h
        rfl
      · obtain ⟨_, _, _, _, _, _, hLeft, hRight, hFinish⟩ := (expr_binary_run hOp).mp h
        rw [value_of_stays hFinish, Instr.acts, operand_isElement hLeft, operand_isElement hRight]
        cases op <;> rfl
  | call receiver method arguments ty =>
      cases hLength : asksLength receiver method arguments with
      | true =>
          obtain ⟨_, _, _, _, hFinish⟩ := (expr_length_run hLength).mp h
          rw [value_of_stays hFinish]
          rfl
      | false =>
          obtain ⟨kind, _, _, _, _, _, _, _, _, _, hTarget, _, _, hFinish⟩ :=
            (expr_call_run hLength).mp h
          rw [value_of_stays ((finishCall_run rfl).mp hFinish).2]
          have hKind : kind ≠ .new := by
            rcases callTarget_run.mp hTarget with ⟨_, _, rfl, _⟩ | ⟨_, rfl, _⟩ <;> decide
          simp [Instr.acts, hKind, Expr.actsLast, Expr.bare]

/-- After `n` steps, a run of the body comes to an instruction that acts, in the part of the body
before `rest`. -/
def ActsIn (setting : Setting) (body : List Instr) (env : Semantics.Code.Env) (w : World)
    (part rest : List Instr) (n : Nat) : Prop :=
  ∃ i, i.acts = true ∧ Meets setting body env w part rest n i

/-- What a part does comes before what the part after it does, in every run. Control goes from one part
to the next only, so no part is come back to. -/
theorem ActsIn.lt {setting : Setting} {body first second rest : List Instr}
    {env : Semantics.Code.Env} {w : World} {j k : Nat} (hRegion : Region body (second ++ rest) [])
    (hFirst : ActsIn setting body env w first (second ++ rest) j)
    (hSecond : ActsIn setting body env w second rest k) : j < k := by
  obtain ⟨_, -, hBefore⟩ := hFirst
  obtain ⟨_, -, hAfter⟩ := hSecond
  exact hBefore.lt hRegion hAfter

/-- The code of an assignment to an item of an array: that of the value, that of the array and of the
place, and the instruction that stores the value. -/
structure ElementAssignment where
  value : List Instr
  target : List Instr
  store : Instr
deriving DecidableEq, Repr, Inhabited

namespace ElementAssignment

/-- The whole code of the assignment, in which the code of the value stands first. -/
def code (a : ElementAssignment) : List Instr := a.value ++ (a.target ++ [a.store])

/-- The code is what lowering the assignment gives: value, array and place are lowered one after the
other, and the store is built from what they leave over. -/
def Of (scope : Scope) (base place : Expr) (ty : Source.Ty) (value : Expr) (fresh fresh' : Fresh)
    (a : ElementAssignment) : Prop :=
  ∃ l fresh₁ o baseCode fresh₂ i placeCode array,
    (expr scope value .assignRhs).run fresh = .ok l fresh₁ ∧
    (operand scope base).run fresh₁ = .ok (o, baseCode) fresh₂ ∧
    (operand scope place).run fresh₂ = .ok (i, placeCode) fresh' ∧
    o.variableName? = some array ∧
    a = ⟨l.code, baseCode ++ placeCode,
      .assign (.element array i (.ofSource ty)) (.ofSource ty) l.value⟩

section

variable (a : ElementAssignment) (setting : Setting) (env : Semantics.Code.Env) (w : World)

/-- After `n` steps of a run the code of the value comes to an instruction that acts. -/
def ValueActs : Nat → Prop := ActsIn setting a.code env w a.value (a.target ++ [a.store])

/-- After `n` steps of a run the code of the array and of the place comes to an instruction that acts. -/
def TargetActs : Nat → Prop := ActsIn setting a.code env w a.target [a.store]

/-- After `n` steps of a run the store acts, which is so only if the value has left a call to it. What
the store itself writes is not meant. -/
def StoreActs : Nat → Prop := ActsIn setting a.code env w [a.store] []

/-- Everything that the value does in a run is done before anything that the array and the place do.
What the store does, the value does. -/
def ValueFirst : Prop :=
  ∀ j k, a.ValueActs setting env w j ∨ a.StoreActs setting env w j → a.TargetActs setting env w k →
    j < k

end

variable {a : ElementAssignment} {base place value : Expr} {ty : Source.Ty} {code : List Instr}

theorem exists_of {target : Expr} (hTarget : target.bare = .index base place ty)
    (h : (assign scope target value).run fresh = .ok code fresh') :
    ∃ a, Of scope base place ty value fresh fresh' a ∧ code = a.code := by
  rcases assign_run.mp h with ⟨_, _, hName, _⟩ | ⟨_, _, _, hIndex, hAssign⟩
  · rw [hTarget] at hName
    cases hName
  · rw [hTarget] at hIndex
    cases hIndex
    obtain ⟨l, fresh₁, o, baseCode, fresh₂, i, placeCode, array, hValue, hBase, hPlace, hArray, hCode⟩ :=
      assignElement_run.mp hAssign
    exact ⟨_, ⟨l, fresh₁, o, baseCode, fresh₂, i, placeCode, array, hValue, hBase, hPlace, hArray, rfl⟩,
      by simp [hCode, ElementAssignment.code]⟩

namespace Of

theorem unique {last : Fresh} {b : ElementAssignment} (h : Of scope base place ty value fresh fresh' a)
    (h' : Of scope base place ty value fresh last b) : a = b := by
  obtain ⟨l, fresh₁, o, baseCode, fresh₂, i, placeCode, array, hValue, hBase, hPlace, hArray, rfl⟩ := h
  obtain ⟨l', _, o', _, _, i', _, array', hValue', hBase', hPlace', hArray', rfl⟩ := h'
  cases hValue.symm.trans hValue'
  cases hBase.symm.trans hBase'
  cases hPlace.symm.trans hPlace'
  cases hArray.symm.trans hArray'
  rfl

/-- The store does what the value does last. A place in the target is a plain operand by then, so the
store itself reads nothing else. -/
theorem acts_store (h : Of scope base place ty value fresh fresh' a) :
    a.store.acts = value.actsLast := by
  obtain ⟨l, _, _, _, _, i, _, _, hValue, -, hPlace, -, rfl⟩ := h
  rw [Instr.acts, operand_isElement hPlace, Bool.false_or, acts_value hValue]

theorem nodup (h : Of scope base place ty value fresh fresh' a) : (Code.labels a.code).Nodup := by
  obtain ⟨_, _, _, _, _, _, _, _, hValue, hBase, hPlace, -, rfl⟩ := h
  exact ((ownLabels_expr hValue).append (((ownLabels_operand hBase).append
    (ownLabels_operand hPlace)).append_straight rfl rfl)).nodup

/-- The code of the array and of the place, and the store, jump to their own labels only. -/
theorem region_target (h : Of scope base place ty value fresh fresh' a) :
    Region a.code (a.target ++ [a.store]) [] := by
  refine ⟨?_, ⟨a.value, by rw [List.append_nil, code]⟩, h.nodup⟩
  obtain ⟨_, _, _, _, _, _, _, _, -, hBase, hPlace, -, rfl⟩ := h
  exact (((ownLabels_operand hBase).append (ownLabels_operand hPlace)).append_straight rfl
    rfl).toResolved

theorem region_store (h : Of scope base place ty value fresh fresh' a) :
    Region a.code ([a.store] ++ []) [] := by
  refine ⟨?_, ⟨a.value ++ a.target, by simp [code]⟩, h.nodup⟩
  obtain ⟨_, _, _, _, _, _, _, _, -, -, -, -, rfl⟩ := h
  exact ⟨List.nodup_nil, nofun⟩

end Of

end ElementAssignment

theorem ElementAssignment.StoreActs.acts {a : ElementAssignment} {setting : Setting}
    {env : Semantics.Code.Env} {w : World} {n : Nat} (h : a.StoreActs setting env w n) :
    a.store.acts = true := by
  obtain ⟨i, hActs, later, _, _, hSuffix, -⟩ := h
  obtain rfl : i = a.store := List.mem_singleton.mp (hSuffix.subset List.mem_cons_self)
  exact hActs

/-- The order of an assignment to an item of an array. In every run, what the code of the value does
comes before what the array and the place do, and that comes before what the store does; and the store
does what the value does last, if that is a call, a division or a read. So the value is first in just
those runs in which it does not end so, or the array and the place do nothing, or the store is not
reached. -/
theorem assignment_order {target base place value : Expr} {ty : Source.Ty} {code : List Instr}
    (hTarget : target.bare = .index base place ty)
    (h : (assign scope target value).run fresh = .ok code fresh') :
    ∃ a : ElementAssignment, a.Of scope base place ty value fresh fresh' ∧ code = a.code ∧
      a.store.acts = value.actsLast ∧
      ∀ setting env w,
        (∀ j k, a.ValueActs setting env w j → a.TargetActs setting env w k → j < k) ∧
        (∀ j k, a.TargetActs setting env w j → a.StoreActs setting env w k → j < k) ∧
        (a.ValueFirst setting env w ↔ (value.actsLast = true →
          (∃ j, a.TargetActs setting env w j) → ¬∃ k, a.StoreActs setting env w k)) := by
  obtain ⟨a, hOf, hCode⟩ := ElementAssignment.exists_of hTarget h
  refine ⟨a, hOf, hCode, hOf.acts_store, fun setting env w => ?_⟩
  have hValue : ∀ j k, a.ValueActs setting env w j → a.TargetActs setting env w k → j < k :=
    fun j k hFirst hSecond => ActsIn.lt hOf.region_target hFirst hSecond
  have hStore : ∀ j k, a.TargetActs setting env w j → a.StoreActs setting env w k → j < k :=
    fun j k hFirst hSecond => ActsIn.lt hOf.region_store hFirst hSecond
  refine ⟨hValue, hStore, ?_⟩
  constructor
  · rintro hFirst - ⟨j, hTargetActs⟩ ⟨k, hStoreActs⟩
    have hBefore := hFirst k j (.inr hStoreActs) hTargetActs
    have hAfter := hStore j k hTargetActs hStoreActs
    omega
  · intro hApart j k hValueActs hTargetActs
    rcases hValueActs with hCodeActs | hStoreActs
    · exact hValue j k hCodeActs hTargetActs
    · have hLast := hOf.acts_store.symm.trans hStoreActs.acts
      exact (hApart hLast ⟨k, hTargetActs⟩ ⟨j, hStoreActs⟩).elim

namespace Order

/-- `static int place()`, or another method that only gives a number back. -/
def number (name : String) : Source.Signature := ⟨name, .int, [], [], true, false⟩

/-- `static void set(int[] a)`. -/
def set : Source.Signature := ⟨"set", .void, [.plain "a" .intArray], [], true, false⟩

/-- The scope of `set`, in a class with the two methods `place` and `item`. -/
def inSet : Scope :=
  ⟨{ Source.SymbolTable.empty "Order" with methods := [number "place", number "item", set] }, set⟩

/-- A call of a method of the class by its name. -/
def ask (method : String) : Expr := .call (.ident "Order" (.object "Order")) method [] .int

/-- `a[Order.place()]`. -/
def target : Expr := .index (.ident "a" .intArray) (ask "place") .int

/-- The call of the method, as an instruction. -/
def answer (method : String) : Instr :=
  .call .invokeStatic (.classRef "Order") (some method) [] .int32

/-- `a[Order.place()] = Order.item() + 1`. -/
def sum : ElementAssignment where
  value := [.assign (.variable "tmp0" .int32) .int32 (answer "item")]
  target := [.assign (.variable "tmp1" .int32) .int32 (answer "place")]
  store := .assign (.element "a" (.variable "tmp1" .int32) .int32) .int32
    (.binary .add (.variable "tmp0" .int32) (.int 1) .int32)

/-- `a[Order.place()] = Order.item()`. -/
def item : ElementAssignment where
  value := []
  target := [.assign (.variable "tmp0" .int32) .int32 (answer "place")]
  store := .assign (.element "a" (.variable "tmp0" .int32) .int32) .int32 (answer "item")

/-- Every call gives back 0. -/
def setting : Setting := { (default : Setting) with host := ⟨fun w _ => some (.int 0, w.heap)⟩ }

/-- The array is the only variable that has a value. -/
def env : Semantics.Code.Env := fun name => if name = "a" then some (.ref (some 0)) else none

/-- A heap with the one array, of one item. -/
def start : World := ⟨[.array .int [.int 0]], []⟩

end Order

/-- A sum is added up by the store, but the call in it comes first, in every run of the code that is
lowered for the assignment. -/
theorem sum_order :
    (assign Order.inSet Order.target (.ofBinary .add (Order.ask "item") (.intLiteral 1))).run .start =
        .ok Order.sum.code ⟨2, 0⟩ ∧
      ElementAssignment.Of Order.inSet (.ident "a" .intArray) (Order.ask "place") .int
        (.ofBinary .add (Order.ask "item") (.intLiteral 1)) .start ⟨2, 0⟩ Order.sum ∧
      ∀ setting env w, Order.sum.ValueFirst setting env w := by
  have hLowered : (assign Order.inSet Order.target
      (.ofBinary .add (Order.ask "item") (.intLiteral 1))).run .start =
      .ok Order.sum.code ⟨2, 0⟩ := by with_unfolding_all rfl
  have hSum : ElementAssignment.Of Order.inSet (.ident "a" .intArray) (Order.ask "place") .int
      (.ofBinary .add (Order.ask "item") (.intLiteral 1)) .start ⟨2, 0⟩ Order.sum :=
    ⟨⟨.binary .add (.variable "tmp0" .int32) (.int 1) .int32, Order.sum.value⟩, ⟨1, 0⟩,
      .variable "a" .intArray, [], ⟨1, 0⟩, .variable "tmp1" .int32, Order.sum.target, "a",
      by with_unfolding_all rfl, rfl, by with_unfolding_all rfl, rfl, rfl⟩
  refine ⟨hLowered, hSum, fun setting env w => ?_⟩
  obtain ⟨a, hOf, -, -, hOrder⟩ := assignment_order rfl hLowered
  obtain rfl := hOf.unique hSum
  exact (hOrder setting env w).2.2.mpr nofun

/-- A call that is the value itself is left to the store, and so comes after the call that gives the
place. -/
theorem item_not_valueFirst :
    (assign Order.inSet Order.target (Order.ask "item")).run .start = .ok Order.item.code ⟨1, 0⟩ ∧
      ElementAssignment.Of Order.inSet (.ident "a" .intArray) (Order.ask "place") .int
        (Order.ask "item") .start ⟨1, 0⟩ Order.item ∧
      ¬Order.item.ValueFirst Order.setting Order.env Order.start := by
  refine ⟨by with_unfolding_all rfl, ?_, ?_⟩
  · exact ⟨⟨Order.answer "item", []⟩, .start, .variable "a" .intArray, [], .start,
      .variable "tmp0" .int32, Order.item.target, "a", rfl, rfl, by with_unfolding_all rfl, rfl, rfl⟩
  · intro hFirst
    have hPlace : Order.item.TargetActs Order.setting Order.env Order.start 0 :=
      ⟨_, rfl, [], Order.env, Order.start, List.suffix_refl _, .zero _ _⟩
    have hItem : Order.item.StoreActs Order.setting Order.env Order.start 1 :=
      ⟨_, rfl, [], _, _, List.suffix_refl _, .single rfl⟩
    exact absurd (hFirst 1 0 (.inr hItem) hPlace) (by decide)

end MiniJava.Lowering
