import MiniJava.Proofs.Lowering.ExprTyping
import MiniJava.Proofs.Lowering.StmtMeaning

/-!
Code of expressions by itself, whatever their values are used for: it does what the expression does
and changes no declared variable, and the right operand of `&&` is run if and only if the left one
holds.
-/

namespace MiniJava.Semantics.Source

variable {address : Nat} {w : World}

/-- Writing an integer to a place within an array changes that item and is recorded. This is the one step
of filling a fresh array. -/
theorem writeItem_run {k : Nat} {n : Int32} {items : List Value}
    (hCell : w.heap[address]? = some (.array .int items)) (hPlace : k < items.length)
    (hSize : k < Nat.pow 2 31) :
    (writeItem (.ref (some address)) (.int (.ofNat k)) .int (.int n)).run w =
      .ok () ⟨w.heap.set address (.array .int (items.set k (.int n))),
        w.trace ++ [.itemWrite address k (.int n)]⟩ := by
  have hNat : (Int32.ofNat k).toInt = k := Int32.toInt_ofNat_of_lt hSize
  have hCellAt : (cellAt address).run w = .ok (.array .int items) w := by
    have hGet : (get : Act World).run w = .ok w w := rfl
    rw [cellAt, run_bind_of_ok hGet, hCell]
    rfl
  have hArray : (arrayAt address .int).run w = .ok items w := by
    rw [arrayAt, run_bind_of_ok hCellAt]
    rfl
  have hIn : (placeIn items (.ofNat k)).run w = .ok k w := by
    rw [placeIn, hNat, if_pos ⟨by omega, by simpa using hPlace⟩]
    rfl
  simp only [writeItem, toInt, toAddress, pure_bind]
  rw [run_bind_of_ok hArray, run_bind_of_ok hIn]
  rfl

/-- Items written one after the other, behind those that are there already. The record lists them in the
same order. -/
theorem writeItems_run {done : List Value} {ns : List Int32} {left : List Value}
    (hCell : w.heap[address]? = some (.array .int (done ++ left))) (hLeft : left.length = ns.length)
    (hSize : done.length + ns.length < Nat.pow 2 31) :
    (writeItems (.ref (some address)) done.length (ns.map .int)).run w =
      .ok () ⟨w.heap.set address (.array .int (done ++ ns.map .int)),
        w.trace ++ ns.mapIdx fun k n => .itemWrite address (done.length + k) (.int n)⟩ := by
  induction ns generalizing done left w with
  | nil =>
      obtain rfl := List.eq_nil_of_length_eq_zero hLeft
      obtain ⟨hThere, hItems⟩ := List.getElem?_eq_some_iff.mp hCell
      rw [List.map_nil, ← hItems, List.set_getElem_self]
      simp [writeItems]
  | cons n ns ih =>
      obtain ⟨first, left, rfl⟩ := List.exists_cons_of_length_eq_add_one hLeft
      rw [List.length_cons, List.length_cons, Nat.add_right_cancel_iff] at hLeft
      rw [List.length_cons] at hSize
      have hFirst := writeItem_run (n := n) hCell (k := done.length) (by simp) (by omega)
      have hSet : (done ++ first :: left).set done.length (.int n) = (done ++ [.int n]) ++ left := by
        simp
      rw [hSet] at hFirst
      have hThere : (w.heap.set address (.array .int ((done ++ [.int n]) ++ left)))[address]? =
          some (.array .int ((done ++ [.int n]) ++ left)) :=
        List.getElem?_set_self (List.getElem?_eq_some_iff.mp hCell).1
      have hRest := ih (w := ⟨_, w.trace ++ [.itemWrite address done.length (.int n)]⟩) hThere hLeft
        (by rw [List.length_append, List.length_singleton]; omega)
      rw [List.length_append, List.length_singleton] at hRest
      rw [List.map_cons, writeItems, run_bind_of_ok hFirst, hRest]
      simp [List.set_set, List.mapIdx_cons, Nat.add_assoc, Nat.add_comm 1]

/-- The array of the values is a new one, as long as they are, and holds them in their order. -/
theorem arrayOf_run {ns : List Int32} (hSize : ns.length < Nat.pow 2 31) :
    (arrayOf (ns.map .int)).run w =
      .ok (.ref (some w.heap.length)) ⟨w.heap ++ [.array .int (ns.map .int)],
        w.trace ++ ns.mapIdx fun k n => .itemWrite w.heap.length k (.int n)⟩ := by
  have hLength : (Int32.ofNat ns.length).toInt = ns.length := Int32.toInt_ofNat_of_lt hSize
  have hNew : (newArray .int (.ofNat (ns.map Value.int).length)).run w =
      .ok (.ref (some w.heap.length))
        { w with heap := w.heap ++ [.array .int (List.replicate ns.length (.int 0))] } := by
    have hSign : ¬Int32.ofNat ns.length < 0 := by
      rw [Int32.lt_iff_toInt_lt, hLength]
      simp
    rw [List.length_map, newArray, if_neg hSign, hLength]
    rfl
  have hCell : (w.heap ++ [.array .int (List.replicate ns.length (.int 0))])[w.heap.length]? =
      some (.array .int ([] ++ List.replicate ns.length (.int 0))) := by simp
  have hWrite := writeItems_run (w := ⟨_, w.trace⟩) hCell List.length_replicate
    (by simpa using hSize)
  rw [List.length_nil] at hWrite
  rw [arrayOf, run_bind_of_ok hNew, run_bind_of_ok hWrite]
  simp

end MiniJava.Semantics.Source

namespace MiniJava.Lowering

open Code (Condition Instr Label Operand)
open Semantics (Comes Ends Reaches Setting World)
open Semantics.Code (Meets Region State)
open Source (Expr)

variable {scope : Scope} {fresh fresh' fresh₁ fresh₃ : Fresh} {setting : Setting}
  {body rest : List Instr} {locals : Semantics.Source.Env} {env : Semantics.Code.Env} {w v : World}

/-- Whenever the code of a condition has come to its end, the condition tests whether the expression
holds. -/
theorem holds_of_reaches {e : Expr} {c : Condition} {code : List Instr} {n : Nat} {t : State}
    (hKnown : scope.Known) (hTyped : e.wellTyped scope = true)
    (h : (condition scope e).run fresh = .ok (c, code) fresh') (hAgrees : Agrees scope locals env)
    (hReach : Reaches (Semantics.Code.step setting code) n ⟨code, env⟩ w t v) (hEnd : t.rest = []) :
    (Semantics.Code.holds setting t.env c).run v =
      (Semantics.Source.holds setting scope locals e).run w := by
  -- With a return behind it, the code cannot end as a condition that stops.
  have hNodup : (Code.labels (code ++ [.ret none .void])).Nodup :=
    ((ownLabels_condition h).append_straight rfl rfl).nodup
  have hRegion : Region (code ++ [.ret none .void]) code [.ret none .void] :=
    ⟨(ownLabels_condition h).toResolved, List.suffix_refl _, hNodup⟩
  have hThere := hRegion.reaches (List.suffix_refl _) hReach
  obtain ⟨code', env'⟩ := t
  obtain rfl := hEnd
  have hMeans : Means setting scope (code ++ [.ret none .void]) e := means hKnown hNodup hTyped
  rcases hMeans.condition (w := w) h (List.suffix_refl _) hAgrees with
    ⟨m, s, x, hComes, env₁, rfl, -, hHolds⟩ | ⟨stop, x, -, hStops⟩
  · obtain ⟨hSame, rfl⟩ := hThere.last_unique hComes nofun nofun
    cases hSame
    exact hHolds
  · cases hStops.unique (hThere.ends (.returned rfl))

/-- The part of the code of `&&` that evaluates the right operand, and moves its value to the result. -/
def rightPart (result : Operand) (right : Operand × List Instr) : List Instr :=
  right.2 ++ [.assign result .boolean (.operand right.1)]

/-- The code of `&&` behind the branch, which goes on where the left operand does not hold. The right
part stands in it, behind a label that only the branch names. -/
def behindBranch (labels : Label × Label) (result : Operand) (right : Operand × List Instr) :
    List Instr :=
  .assign result .boolean (.operand (.bool false)) :: .goto labels.2 :: .label labels.1 ::
    (rightPart result right ++ [.label labels.2])

/-- The code of `&&` behind that of its left operand: the branch, and what is behind the branch. -/
theorem shortCircuit_eq {labels : Label × Label} {result : Operand} {c : Condition}
    {right : Operand × List Instr} :
    shortCircuit labels result c right = .branch c labels.1 :: behindBranch labels result right := by
  simp [shortCircuit, behindBranch, rightPart]

/-- Behind the branch there are four instructions besides the part of the right operand. -/
theorem length_behindBranch {labels : Label × Label} {result : Operand}
    {right : Operand × List Instr} :
    (behindBranch labels result right).length = (rightPart result right).length + 4 := by
  simp [behindBranch]

/-- Where the left operand turned out false, control goes on to the end and nowhere else. The right part
lies behind the jump, and nothing jumps into it. -/
theorem rest_of_skip {l : Label} {name : String} {ty ty' : Code.Ty} {other : List Instr} {n : Nat}
    {s : State} (hNodup : (Code.labels body).Nodup) (hEnd : [.label l] <:+ body)
    (hReach : Reaches (Semantics.Code.step setting body) n
      ⟨.assign (.variable name ty) ty' (.operand (.bool false)) :: .goto l :: other, env⟩ w s v) :
    s.rest = .assign (.variable name ty) ty' (.operand (.bool false)) :: .goto l :: other ∨
      s.rest = .goto l :: other ∨ s.rest <:+ [.label l] := by
  have hFalse : Holds setting env (.bool false) (.ofBool false) := rfl
  have hRegion : Region body [.label l] [] := by
    refine ⟨⟨List.nodup_singleton l, nofun⟩, ?_, hNodup⟩
    rwa [List.append_nil]
  cases hReach with
  | zero _ _ => exact .inl rfl
  | succ hAssign hRest =>
      rw [step_assign_operand hFalse] at hAssign
      cases hAssign
      cases hRest with
      | zero _ _ => exact .inr (.inl rfl)
      | succ hGoto hRest =>
          rw [step_goto hNodup hEnd] at hGoto
          cases hGoto
          exact .inr (.inr (hRegion.reaches_suffix (List.suffix_refl _) hRest))

section

variable {left : Expr} {c : Condition} {leftCode : List Instr} {labels : Label × Label}
  {name : String} {right : Operand × List Instr}

theorem suffix_behindBranch
    (hBody : body = leftCode ++ .branch c labels.1 ::
      behindBranch labels (.variable name .boolean) right) :
    (.label labels.1 :: (rightPart (.variable name .boolean) right ++ [.label labels.2])) <:+ body ∧
      [.label labels.2] <:+ body := by
  have hYes : (.label labels.1 ::
      (rightPart (.variable name .boolean) right ++ [.label labels.2])) <:+ body := by
    rw [hBody]
    exact ((List.suffix_cons _ _).trans (List.suffix_cons _ _)).trans
      ((List.suffix_cons _ _).trans (List.suffix_append leftCode _))
  exact ⟨hYes, ((List.suffix_append _ _).trans (List.suffix_cons _ _)).trans hYes⟩

/-- From the branch on, the right operand is come to only if the test holds. A run that meets one of its
instructions must have taken the jump. -/
theorem holds_of_meets_right {n : Nat} {i : Instr} {later : List Instr} {env' : Semantics.Code.Env}
    (hBody : body = leftCode ++ .branch c labels.1 ::
      behindBranch labels (.variable name .boolean) right)
    (hNodup : (Code.labels body).Nodup)
    (hReach : Reaches (Semantics.Code.step setting body) n
      ⟨.branch c labels.1 :: behindBranch labels (.variable name .boolean) right, env⟩ w
      ⟨i :: (later ++ [.label labels.2]), env'⟩ v)
    (hPart : (i :: later) <:+ rightPart (.variable name .boolean) right) :
    ∃ v, (Semantics.Code.holds setting env c).run w = .ok true v := by
  obtain ⟨hYes, hEnd⟩ := suffix_behindBranch hBody
  have hShort := hPart.length_le
  rw [List.length_cons] at hShort
  have hLong : ∀ front : List Instr, i :: (later ++ [.label labels.2]) ≠
      front ++ .goto labels.2 :: .label labels.1 ::
        (rightPart (.variable name .boolean) right ++ [.label labels.2]) := by
    intro front hSame
    have hLengths := congrArg List.length hSame
    simp only [List.length_append, List.length_cons, List.length_nil] at hLengths
    omega
  generalize hStart : State.mk (.branch c labels.1 :: _) env = start at hReach
  cases hReach with
  | zero _ _ => exact (hLong [_, _] (congrArg State.rest hStart).symm).elim
  | succ hFirst hRest =>
      obtain rfl := hStart
      rw [step_branch hNodup hYes] at hFirst
      obtain ⟨b, _, hRun, hNext⟩ := run_bind_ok.mp hFirst
      cases hNext
      cases b with
      | true => exact ⟨_, hRun⟩
      | false =>
          rcases rest_of_skip hNodup hEnd hRest with hHere | hHere | hHere
          · exact (hLong [_] hHere).elim
          · exact (hLong [] hHere).elim
          · have hLength := hHere.length_le
            simp at hLength

/-- The code of the right operand is run if and only if the left operand holds. A left operand that stops
the run does not hold, so the right one is not run then either. -/
theorem meets_right_iff (hKnown : scope.Known) (hTyped : left.wellTyped scope = true)
    (hLeft : (condition scope left).run fresh = .ok (c, leftCode) fresh')
    (hBody : body = leftCode ++ shortCircuit labels (.variable name .boolean) c right)
    (hNodup : (Code.labels body).Nodup) (hAgrees : Agrees scope locals env) :
    (∃ n i, Meets setting body env w (rightPart (.variable name .boolean) right)
        [.label labels.2] n i) ↔
      ∃ v, (Semantics.Source.holds setting scope locals left).run w = .ok true v := by
  rw [shortCircuit_eq] at hBody
  constructor
  · rintro ⟨n, i, later, env', v, hPart, hReach⟩
    have hRegion : Region body leftCode
        (.branch c labels.1 :: behindBranch labels (.variable name .boolean) right) :=
      ⟨(ownLabels_condition hLeft).toResolved, ⟨[], hBody.symm⟩, hNodup⟩
    have hStart : (⟨body, env⟩ : State) = (State.mk leftCode env).before
        (.branch c labels.1 :: behindBranch labels (.variable name .boolean) right) :=
      congrArg (State.mk · env) hBody
    obtain ⟨k, m, ⟨code, env₁⟩, x, -, hCome, hOut, hGo⟩ :=
      hRegion.split (List.suffix_refl _) (hStart ▸ hReach)
    -- The right part is shorter than all that stands before it, so the left operand is done.
    obtain rfl : code = [] := by
      refine hOut.resolve_left ?_
      rintro rfl
      generalize hState : State.before _ _ = start at hGo
      cases hGo
      have hLengths := congrArg (fun s : State => s.rest.length) hState
      have hShort := hPart.length_le
      simp only [State.before, List.length_append, List.length_cons, length_behindBranch,
        List.length_nil] at hLengths hShort
      omega
    obtain ⟨y, hTrue⟩ := holds_of_meets_right hBody hNodup hGo hPart
    exact ⟨y, (holds_of_reaches hKnown hTyped hLeft hAgrees hCome rfl).symm.trans hTrue⟩
  · rintro ⟨v, hTrue⟩
    obtain ⟨hYes, -⟩ := suffix_behindBranch hBody
    have hMeans : Means setting scope body left := means hKnown hNodup hTyped
    rcases hMeans.branch (w := w) hLeft hNodup hYes ⟨[], hBody.symm⟩ hAgrees with
      ⟨n, t, x, hReach, b, hOk, env', rfl, -, -⟩ | ⟨_, _, hStops, -⟩
    · rw [hTrue] at hOk
      cases hOk
      rw [← hBody, if_pos rfl] at hReach
      obtain ⟨i, later, hRight⟩ := List.exists_cons_of_ne_nil
        (List.append_ne_nil_of_right_ne_nil right.2 (List.cons_ne_nil
          (Instr.assign (.variable name .boolean) .boolean (.operand right.1)) []))
      refine ⟨n + 1, i, later, env', v, ⟨[], hRight.symm⟩, hReach.trans ?_⟩
      rw [rightPart, hRight]
      exact .single step_label
    · rw [hTrue] at hStops
      cases hStops

end

/-- The parameters and local variables of the method have the values that they had. Temporaries may have
changed, since no program sees them. -/
def Unchanged (scope : Scope) (env env' : Semantics.Code.Env) : Prop :=
  ∀ name d, scope.method.lookup? name = some d → env' name = env name

/-- Scratch names are declared nowhere, so that what changes scratch names only changes no variable of
the method. -/
theorem Kept.unchanged {first : Nat} {env' : Semantics.Code.Env} (h : Kept scope first env env') :
    Unchanged scope env env' :=
  fun name _ hLookup => h name (not_scratch_of_taken (lookup_mem_takenNames hLookup))

/-- The code of an expression does what the expression does, for every use of its value, wherever it
stands, and whatever the heap holds and the host answers. It stops as the expression does, or it comes
to its end with all declared variables unchanged, and the instruction that is left then yields the
result of the expression, in the same world; if the value is dropped, running the instruction as well
does all that the expression does. Items in brackets, and trailing arguments, give a new array
(`Semantics.Source.arrayOf_run`). Of an `&&`, the part of the code that evaluates the right operand
is run if and only if the left operand holds. -/
theorem expr_evaluates {e : Expr} {use : Use} {l : Lowered} (hKnown : scope.Known)
    (hTyped : e.wellTyped scope = true) (h : (expr scope e use).run fresh = .ok l fresh')
    (setting : Setting) (hAgrees : Agrees scope locals env) (w : World) :
    (∀ body rest, (Code.labels body).Nodup → (l.code ++ rest) <:+ body →
      Comes (Semantics.Code.step setting body) ⟨l.code ++ rest, env⟩ w
        ((Semantics.Source.eval setting scope locals e).run w) fun t v =>
          ∃ env', t = ⟨rest, env'⟩ ∧ Unchanged scope env env' ∧
            (Semantics.Code.value setting env' l.value).run v =
              (Semantics.Source.eval setting scope locals e).run w) ∧
    (use = .discard → ∀ body rest, (Code.labels body).Nodup → (discarded l ++ rest) <:+ body →
      Comes (Semantics.Code.step setting body) ⟨discarded l ++ rest, env⟩ w
        ((Semantics.Source.eval setting scope locals e).run w) fun t v =>
          ∃ a env', (Semantics.Source.eval setting scope locals e).run w = .ok a v ∧
            t = ⟨rest, env'⟩ ∧ Unchanged scope env env') ∧
    ∀ left right ty, e.bare = .binary .and left right ty →
      ∃ c leftCode fresh₁ labels result fresh₂ o rightCode,
        (condition scope left).run fresh = .ok (c, leftCode) fresh₁ ∧
        (operand scope right).run fresh₂ = .ok (o, rightCode) fresh' ∧
        l.code = leftCode ++
          shortCircuit labels (.variable result .boolean) c (o, rightCode) ∧
        ((∃ n i, Meets setting l.code env w (rightPart (.variable result .boolean) (o, rightCode))
            [.label labels.2] n i) ↔
          ∃ v, (Semantics.Source.holds setting scope locals left).run w = .ok true v) := by
  refine ⟨fun body rest hNodup hSuffix => ?_, ?_, fun left right ty hBare => ?_⟩
  · refine (means hKnown hNodup hTyped use fresh l fresh' h locals env w rest hSuffix hAgrees).mono ?_
    rintro t v ⟨env', hState, hKept, hYields⟩
    exact ⟨env', hState, hKept.unchanged, hYields.run⟩
  · rintro rfl body rest hNodup hSuffix
    refine ((means hKnown hNodup hTyped).discarded h hSuffix hAgrees).mono ?_
    rintro t v ⟨a, hOk, env', hState, hKept, -⟩
    exact ⟨a, env', hOk, hState, hKept.unchanged⟩
  · have hNodup := (ownLabels_expr h).nodup
    rw [← wellTyped_bare, hBare] at hTyped
    simp only [Expr.wellTyped, Bool.and_eq_true] at hTyped
    rw [← expr_bare, hBare] at h
    obtain ⟨c, leftCode, fresh₁, labels, _, result, fresh₂, o, rightCode, hLeft, -, -, hRight, rfl⟩ :=
      expr_and_run.mp h
    exact ⟨c, leftCode, fresh₁, labels, result, fresh₂, o, rightCode, hLeft, hRight, rfl,
      meets_right_iff hKnown hTyped.1.1.1.1 hLeft rfl hNodup hAgrees⟩

namespace Gate

/-- `static boolean ask(int... ns)`. -/
def ask : Source.Signature := ⟨"ask", .boolean, [.varargs "ns"], [], true, false⟩

/-- `static void enter(boolean p)`. -/
def enter : Source.Signature := ⟨"enter", .void, [.plain "p" .boolean], [], true, false⟩

/-- The scope of `enter`, in a class that can be asked. -/
def inEnter : Scope := ⟨{ Source.SymbolTable.empty "Gate" with methods := [ask, enter] }, enter⟩

/-- `p && Gate.ask(1, 2)`. -/
def passes : Expr :=
  .ofBinary .and (.ident "p" .boolean)
    (.call (.ident "Gate" (.object "Gate")) "ask" [.intLiteral 1, .intLiteral 2] .boolean)

/-- The code of the conjunction. The array for the call is made within the part of the right operand. -/
def lowered : Lowered where
  value := .operand (.variable "tmp0" .boolean)
  code := [
    .branch (.single (.variable "p" .boolean)) ⟨.ifBody, 0⟩,
    .assign (.variable "tmp0" .boolean) .boolean (.operand (.bool false)),
    .goto ⟨.endIf, 0⟩,
    .label ⟨.ifBody, 0⟩,
    .assign (.variable "tmp1" .intArray) .intArray (newIntArray (.int 2)),
    .assign (.element "tmp1" (.int 0) .int32) .int32 (.operand (.int 1)),
    .assign (.element "tmp1" (.int 1) .int32) .int32 (.operand (.int 2)),
    .assign (.variable "tmp2" .boolean) .boolean (.call .invokeStatic (.classRef "Gate") (some "ask")
      [.variable "tmp1" .intArray] .boolean),
    .assign (.variable "tmp0" .boolean) .boolean (.operand (.variable "tmp2" .boolean)),
    .label ⟨.endIf, 0⟩]

/-- `p` is false. -/
def closed : Semantics.Source.Env := fun _ => .ofBool false

end Gate

/-- The gate is closed: nothing is asked, and no array is made. -/
theorem passes_evaluates :
    Gate.passes.wellTyped Gate.inEnter = true ∧
      (expr Gate.inEnter Gate.passes .value).run .start = .ok Gate.lowered ⟨3, 1⟩ ∧
      (∃ n env', Reaches (Semantics.Code.step default Gate.lowered.code) n
          ⟨Gate.lowered.code ++ [], fun name => some (Gate.closed name)⟩ ⟨[], []⟩ ⟨[], env'⟩ ⟨[], []⟩ ∧
        env' "p" = some (.ofBool false) ∧
        (Semantics.Code.value default env' Gate.lowered.value).run ⟨[], []⟩ =
          .ok (.ofBool false) ⟨[], []⟩) ∧
      ∃ c leftCode labels result right,
        Gate.lowered.code = leftCode ++ shortCircuit labels (.variable result .boolean) c right ∧
        ¬∃ n i, Meets default Gate.lowered.code (fun name => some (Gate.closed name)) ⟨[], []⟩
          (rightPart (.variable result .boolean) right) [.label labels.2] n i := by
  have hTyped : Gate.passes.wellTyped Gate.inEnter = true := by decide
  have hLowered : (expr Gate.inEnter Gate.passes .value).run .start = .ok Gate.lowered ⟨3, 1⟩ := by
    with_unfolding_all rfl
  have hEval : (Semantics.Source.eval default Gate.inEnter Gate.closed Gate.passes).run ⟨[], []⟩ =
      .ok (.ofBool false) ⟨[], []⟩ := by rfl
  have hAgrees : Agrees Gate.inEnter Gate.closed fun name => some (Gate.closed name) :=
    fun _ _ _ => rfl
  obtain ⟨hEverywhere, -, hAnd⟩ :=
    expr_evaluates (by rfl) hTyped hLowered default hAgrees ⟨[], []⟩
  refine ⟨hTyped, hLowered, ?_, ?_⟩
  · rcases hEverywhere Gate.lowered.code [] (ownLabels_expr hLowered).nodup (by simp) with
      ⟨n, _, v, hReach, env', rfl, hSame, hValue⟩ | ⟨_, _, hStops, -⟩
    · rw [hEval] at hValue
      -- An operand is read in the world in which it stands.
      obtain rfl : v = ⟨[], []⟩ := by
        have hRead : (Semantics.Code.operand default env' (.variable "tmp0" .boolean)).run v =
            .ok (.ofBool false) ⟨[], []⟩ := hValue
        unfold Semantics.Code.operand at hRead
        split at hRead
        · cases hRead
          rfl
        · cases hRead
      exact ⟨n, env', hReach, hSame "p" _ rfl, hValue⟩
    · rw [hEval] at hStops
      cases hStops
  · obtain ⟨c, leftCode, _, labels, result, _, o, rightCode, -, -, hCode, hMeets⟩ := hAnd _ _ _ rfl
    refine ⟨c, leftCode, labels, result, (o, rightCode), hCode, fun hMet => ?_⟩
    obtain ⟨_, hTrue⟩ := hMeets.mp hMet
    cases hTrue

end MiniJava.Lowering
