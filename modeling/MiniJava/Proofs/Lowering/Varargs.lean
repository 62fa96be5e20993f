import MiniJava.Proofs.Lowering.Freshness
import MiniJava.Proofs.Lowering.References

/-!
Calls of methods of the class itself that collect trailing arguments. The call passes on the operands
of the leading arguments and one array after them: an array that is the only argument left, or a new
one, which is made and filled between the code of the last argument and the call.
-/

namespace MiniJava.Lowering

open Code (CallKind Instr Operand StoresIn)
open Source (Expr Signature)

variable {scope : Scope} {fresh fresh' : Fresh}

/-- The instruction is the last thing that the expression does: it is left to yield the value, or the
code ends with it and leaves the value in a variable. -/
def Lowered.EndsWith (l : Lowered) (code : List Instr) (value : Instr) : Prop :=
  l = ⟨value, code⟩ ∨ ∃ name ty,
    l = ⟨.operand (.variable name ty), code ++ [.assign (.variable name ty) ty value]⟩

/-- The code collects operands in a fresh array. The array is the temporary that is taken from the
numbers `before`, those which the receiver and the arguments leave; so no variable of the method has
its name, and neither does any temporary that was taken earlier, be it for this call or for what the
call stands in. The code makes the array, of as many items as there are operands, and then stores each
operand into the item of its place, from the first to the last. -/
structure Packs (scope : Scope) (before : Fresh) (earlier : List Instr) (os rest : List Operand)
    (array : String) (code : List Instr) : Prop where
  taken : ∃ after, scope.newTemp.run before = .ok array after
  untaken : ∀ other first names, Takes other first names before → array ∉ names
  undeclared : array ∉ scope.takenNames
  unassigned : ∀ i ∈ earlier, i.stores? ≠ some array
  unread : ∀ o ∈ os, array ∉ o.names
  size : rest.length < Nat.pow 2 31
  code_eq : code = .assign (.variable array .intArray) .intArray
    (newIntArray (.int (.ofNat rest.length))) :: storeItems array 0 rest

/-- A value ends the code of its expression, where it stays and where it is moved to a temporary. -/
theorem endsWith_finish {mayStay : Bool} {value : Instr} {code : List Instr} {l : Lowered}
    (h : (finish scope mayStay value code).run fresh = .ok l fresh') : l.EndsWith code value := by
  rcases finish_run.mp h with ⟨-, rfl, -⟩ | ⟨-, name, -, rfl⟩
  · exact .inl rfl
  · exact .inr ⟨name, value.valueType, rfl⟩

/-- One array is passed if there is one argument and its type is that of an array. -/
theorem isOneArray_iff {arguments : List Expr} :
    isOneArray arguments = true ↔ ∃ e, arguments = [e] ∧ e.ty.isArray = true := by
  match arguments with
  | [] => simp [isOneArray]
  | [e] => simp [isOneArray]
  | _ :: _ :: _ => simp [isOneArray]

theorem not_mem_names_of_settled {next : Nat} {o : Operand} {name : String}
    (hSettled : Settled scope next o) (hScratch : Scratch scope next name) : name ∉ o.names := by
  cases o with
  | «variable» other ty =>
      intro hName
      obtain rfl := List.mem_singleton.mp hName
      exact hSettled hScratch
  | element array place ty => exact hSettled.elim
  | _ => exact List.not_mem_nil

/-- A temporary that is still to be taken is none of those that were taken, in whatever method: its
number is not reached by theirs. -/
theorem not_mem_of_takes {other : Scope} {names : List String} {name : String}
    (hTakes : Takes other fresh names fresh') (hScratch : Scratch scope fresh'.nextTemp name) :
    name ∉ names := by
  intro hName
  obtain ⟨-, n, -, hBelow, rfl⟩ := hTakes.number hName
  obtain ⟨-, m, hAbove, hSame⟩ := hScratch
  have hNumber := tempName_injective hSame
  omega

/-- Code that was lowered before a temporary is taken does not store into it. Its own temporaries are
earlier ones, and the search gives no name twice. -/
theorem not_stores_of_takes {names : List String} {code : List Instr} {name : String}
    (hTakes : Takes scope fresh names fresh') (hStores : StoresIn names code)
    (hScratch : Scratch scope fresh'.nextTemp name) : ∀ i ∈ code, i.stores? ≠ some name :=
  fun i hi hStore => not_mem_of_takes hTakes hScratch (hStores i hi name hStore)

theorem keepsToOwn_callTarget {receiver : Expr} {kind : CallKind} {target : Operand}
    {code : List Instr}
    (h : (callTarget scope receiver (operand scope receiver)).run fresh =
      .ok (kind, target, code) fresh') :
    ∃ names, Takes scope fresh names fresh' ∧ StoresIn names code := by
  rcases callTarget_run.mp h with ⟨_, _, _, _, rfl, rfl⟩ | ⟨_, _, hObject⟩
  · exact ⟨[], .nil _, .nil⟩
  · exact (keepsToOwn scope receiver).operand hObject

theorem callTarget_settled {receiver : Expr} {kind : CallKind} {target : Operand}
    {code : List Instr}
    (h : (callTarget scope receiver (operand scope receiver)).run fresh =
      .ok (kind, target, code) fresh') : Settled scope fresh'.nextTemp target := by
  rcases callTarget_run.mp h with ⟨_, _, _, rfl, _⟩ | ⟨_, _, hObject⟩
  · trivial
  · exact operand_settled hObject

/-- The array is made when the code of all arguments is done. Its variable is taken from the numbers that
this code has left, so none of it knows the name. -/
theorem packs_fillArray {earlier : List Instr} {os rest : List Operand} {array : String}
    {names : List String} {packCode : List Instr} {first middle : Fresh}
    (hTakes : Takes scope first names middle) (hStores : StoresIn names earlier)
    (hSettled : ∀ o ∈ os, Settled scope middle.nextTemp o)
    (hTemp : scope.newTemp.run middle = .ok array fresh)
    (hFill : (fillArray array rest).run fresh = .ok packCode fresh') :
    Packs scope middle earlier os rest array packCode := by
  have hScratch := Scratch.of_newTemp hTemp
  obtain ⟨hSize, hCode, -⟩ := fillArray_run.mp hFill
  exact {
    taken := ⟨fresh, hTemp⟩
    untaken := fun _ _ _ hEarlier => not_mem_of_takes hEarlier hScratch
    undeclared := hScratch.1
    unassigned := not_stores_of_takes hTakes hStores hScratch
    unread := fun o ho => not_mem_names_of_settled (hSettled o ho) hScratch
    size := hSize
    code_eq := hCode }

/-- A call of a method of the class itself that collects what is behind `n` leading arguments. First
the receiver and the arguments are evaluated. The call then passes on `n + 1` operands, the first `n`
of which are those of the first `n` arguments; if one array is left, its operand is the last and
nothing more is done before the call, and else the last is a new array of the operands that are
left, in a temporary that is taken once the numbers are where the arguments leave them. -/
theorem call_collects {receiver : Expr} {method : String} {arguments : List Expr} {ty : Source.Ty}
    {use : Use} {l : Lowered} {signature : Signature} {n : Nat} (hKnown : scope.Known)
    (hOwn : Source.callsOwnClass scope receiver = true)
    (hMethod : scope.symbols.method? method = some signature)
    (hVarargs : signature.isVarargs = true) (hLeading : signature.parameters.length = n + 1)
    (hCount : n ≤ arguments.length) (hCall : asksLength receiver method arguments = false)
    (h : (expr scope (.call receiver method arguments ty) use).run fresh = .ok l fresh') :
    ∃ kind target targetCode fresh₁ os argumentCode fresh₂ values packCode,
      (callTarget scope receiver (operand scope receiver)).run fresh =
        .ok (kind, target, targetCode) fresh₁ ∧
      (operands scope arguments).run fresh₁ = .ok (os, argumentCode) fresh₂ ∧
      os.length = arguments.length ∧
      l.EndsWith (targetCode ++ argumentCode ++ packCode)
        (.call kind target (some method) values (.ofSource ty)) ∧
      values.length = n + 1 ∧ values.take n = os.take n ∧
      (((∃ e, arguments.drop n = [e] ∧ e.ty.isArray = true) ∧ values = os ∧ packCode = []) ∨
        ((¬∃ e, arguments.drop n = [e] ∧ e.ty.isArray = true) ∧
          ∃ array, values = os.take n ++ [.variable array .intArray] ∧
            Packs scope fresh₂ (targetCode ++ argumentCode) (target :: os) (os.drop n) array
              packCode)) := by
  obtain ⟨kind, target, targetCode, fresh₁, os, argumentCode, fresh₂, values, packCode, fresh₃,
    hTarget, hArguments, hCollect, hFinish⟩ := (expr_call_run hCall).mp h
  have hArity : scope.fixedArity? target receiver.ty method = some n := by
    rw [fixedArity?_eq method (refers_callTarget hKnown (refer hKnown receiver) hTarget).2.1,
      Source.leadingArguments?, if_pos hOwn, hMethod]
    simp [hVarargs, hLeading]
  rw [hArity] at hCollect
  have hLength := (Refer.operands (fun e _ => refer hKnown e) hArguments).2
  obtain ⟨targetNames, hTargetTakes, hTargetStores⟩ := keepsToOwn_callTarget hTarget
  obtain ⟨argumentNames, hTakes, hStores⟩ :=
    KeepsToOwn.operands (fun e _ => keepsToOwn scope e) hArguments
  refine ⟨kind, target, targetCode, fresh₁, os, argumentCode, fresh₂, values, packCode, hTarget,
    hArguments, hLength, endsWith_finish ((finishCall_run rfl).mp hFinish).2, ?_⟩
  rcases collect_run.mp hCollect with ⟨hOne, rfl, rfl, -⟩ | ⟨_, array, ⟨⟩, hOne, hTemp, hFill, rfl⟩
  · obtain ⟨e, hLeft, hArray⟩ := isOneArray_iff.mp hOne
    have hDrop := congrArg List.length hLeft
    rw [List.length_drop, List.length_singleton] at hDrop
    exact ⟨by omega, rfl, .inl ⟨⟨e, hLeft, hArray⟩, rfl, rfl⟩⟩
  · have hNotOne := isOneArray_iff.not.mp (Bool.eq_false_iff.mp hOne)
    refine ⟨?_, ?_, .inr ⟨hNotOne, array, rfl, ?_⟩⟩
    · simp only [List.length_append, List.length_take, List.length_singleton]
      omega
    · rw [List.take_append_of_le_length (by simp; omega), List.take_take, Nat.min_self]
    · have hTargetSettled := (callTarget_settled hTarget).mono (operands_nextTemp hArguments)
      exact packs_fillArray (hTargetTakes.append hTakes) (hTargetStores.append hStores)
        (List.forall_mem_cons.mpr ⟨hTargetSettled, operands_settled hArguments⟩) hTemp hFill

namespace Gather

/-- `static int gather(int first, int... rest)`. -/
def signature : Signature where
  name := "gather"
  returnType := .int
  parameters := [.plain "first" .int, .varargs "rest"]
  locals := []
  isStatic := true
  isPublic := false

/-- The scope of `gather`, in a class that declares it alone. -/
def inGather : Scope :=
  ⟨{ Source.SymbolTable.empty "Gather" with methods := [signature] }, signature⟩

/-- A call of the method by the name of its class. -/
def gather (arguments : List Expr) : Expr :=
  .call (.ident "Gather" (.object "Gather")) "gather" arguments .int

/-- `Gather.gather(7, Gather.gather(1), 2)`, in which the inner call collects nothing. -/
def nested : Expr := gather [.intLiteral 7, gather [.intLiteral 1], .intLiteral 2]

/-- The call, with the first argument and the array of the others. -/
def invocation (first : Int32) (rest : String) : Instr :=
  .call .invokeStatic (.classRef "Gather") (some "gather") [.int first, .variable rest .intArray]
    .int32

/-- The inner call gets an array of no items. The outer one puts the result of the inner call and the
last argument in an array of two. -/
def lowered : Lowered where
  value := invocation 7 "tmp2"
  code := [
    .assign (.variable "tmp0" .intArray) .intArray (newIntArray (.int 0)),
    .assign (.variable "tmp1" .int32) .int32 (invocation 1 "tmp0"),
    .assign (.variable "tmp2" .intArray) .intArray (newIntArray (.int 2)),
    .assign (.element "tmp2" (.int 0) .int32) .int32 (.operand (.variable "tmp1" .int32)),
    .assign (.element "tmp2" (.int 1) .int32) .int32 (.operand (.int 2))]

end Gather

/-- The inner call has taken the first two temporaries when the array of the outer one is made, so that
this is the third. -/
theorem gather_collects :
    (expr Gather.inGather Gather.nested .assignRhs).run .start = .ok Gather.lowered ⟨3, 0⟩ ∧
      ∃ kind target earlier os packCode,
        Gather.lowered.EndsWith (earlier ++ packCode) (.call kind target (some "gather")
          (os.take 1 ++ [.variable "tmp2" .intArray]) .int32) ∧
        Packs Gather.inGather ⟨2, 0⟩ earlier (target :: os) (os.drop 1) "tmp2" packCode := by
  have hLowered : (expr Gather.inGather Gather.nested .assignRhs).run .start =
      .ok Gather.lowered ⟨3, 0⟩ := by with_unfolding_all rfl
  have hMethod : Gather.inGather.symbols.method? "gather" = some Gather.signature := by rfl
  have hTarget : (callTarget Gather.inGather (.ident "Gather" (.object "Gather"))
      (operand Gather.inGather (.ident "Gather" (.object "Gather")))).run .start =
      .ok (.invokeStatic, .classRef "Gather", []) .start := by with_unfolding_all rfl
  have hArguments : (operands Gather.inGather
      [.intLiteral 7, Gather.gather [.intLiteral 1], .intLiteral 2]).run .start =
      .ok ([.int 7, .variable "tmp1" .int32, .int 2], Gather.lowered.code.take 2) ⟨2, 0⟩ := by
    with_unfolding_all rfl
  refine ⟨hLowered, ?_⟩
  obtain ⟨kind, target, targetCode, fresh₁, os, argumentCode, fresh₂, values, packCode, hTarget',
    hArguments', -, hEnds, -, -, hCases⟩ := call_collects (n := 1) (by rfl) (by decide) hMethod
      (by decide) (by decide) (by decide) (by decide) hLowered
  cases hTarget.symm.trans hTarget'
  cases hArguments.symm.trans hArguments'
  rcases hCases with ⟨⟨_, hLeft, -⟩, -, -⟩ | ⟨-, array, rfl, hPacks⟩
  · cases hLeft
  · obtain ⟨_, hTaken⟩ := hPacks.taken
    have hThird : Gather.inGather.newTemp.run ⟨2, 0⟩ = .ok "tmp2" ⟨3, 0⟩ := by
      with_unfolding_all rfl
    cases hThird.symm.trans hTaken
    exact ⟨_, _, _, _, packCode, hEnds, hPacks⟩

end MiniJava.Lowering
