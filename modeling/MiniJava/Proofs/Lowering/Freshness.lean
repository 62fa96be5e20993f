import MiniJava.Proofs.Lowering.Assigned
import MiniJava.Proofs.Lowering.MethodMeaning

/-! Which temporaries lowering takes, in their order; that none is taken twice and none is declared;
and that the code of an expression assigns no other variables. -/

namespace MiniJava.Code

/-- The variable into which the instruction stores: as a whole, or as an array into an item. Other
instructions store into none. -/
def Instr.stores? : Instr → Option String
  | .assign (.variable name _) _ _ => some name
  | .assign (.element array _ _) _ _ => some array
  | _ => none

/-- The code stores into the variables of a list only. Which of them it stores into, and how often, is
left open. -/
def StoresIn (names : List String) (code : List Instr) : Prop :=
  ∀ i ∈ code, ∀ name, i.stores? = some name → name ∈ names

namespace StoresIn

variable {names names' : List String} {code rest : List Instr}

theorem nil : StoresIn names [] := fun _ hi => nomatch hi

theorem append (hCode : StoresIn names code) (hRest : StoresIn names' rest) :
    StoresIn (names ++ names') (code ++ rest) := by
  intro i hi name hName
  rcases List.mem_append.mp hi with hi | hi
  · exact List.mem_append_left _ (hCode i hi name hName)
  · exact List.mem_append_right _ (hRest i hi name hName)

theorem single {i : Instr} (h : ∀ name, i.stores? = some name → name ∈ names) :
    StoresIn names [i] := by
  intro j hj
  obtain rfl := List.mem_singleton.mp hj
  exact h

end StoresIn

end MiniJava.Code

namespace MiniJava.Lowering

open Code (CallKind Condition Instr Operand StoresIn)
open Source (Expr MethodDecl Program Signature Stmt SymbolTable)

variable {scope : Scope} {fresh fresh' : Fresh}

/-- From one state of the numbers to another by taking temporaries, in this order, and labels. The names
are those that the search of the method finds in these states, and no others. -/
inductive Takes (scope : Scope) : Fresh → List String → Fresh → Prop
  | nil (fresh : Fresh) : Takes scope fresh [] fresh
  | temp {fresh middle last : Fresh} {name : String} {names : List String}
      (hTemp : scope.newTemp.run fresh = .ok name middle) (hRest : Takes scope middle names last) :
      Takes scope fresh (name :: names) last
  | label {fresh middle last : Fresh} {id : Nat} {names : List String}
      (hLabel : newLabelId.run fresh = .ok id middle) (hRest : Takes scope middle names last) :
      Takes scope fresh names last

/-- All temporaries with numbers from `first` up to, but not including, `last`. Numbers whose names are
taken by the program are left out. -/
def temporaries (scope : Scope) (first last : Nat) : List String :=
  ((List.range' first (last - first)).map tempName).filter fun name => name ∉ scope.takenNames

/-- Numbers that the search for a free temporary passes over make names that are taken. So no free number
is left out. -/
theorem taken_of_lt_firstFree {taken : List String} {n m : Nat} (hFrom : n ≤ m)
    (hTo : m < firstFree taken n) : tempName m ∈ taken := by
  induction taken, n using firstFree.induct with
  | case1 taken n hTaken ih =>
      rw [firstFree, if_pos hTaken] at hTo
      rcases Nat.eq_or_lt_of_le hFrom with rfl | hLater
      · exact hTaken
      · exact List.mem_of_mem_erase (ih hLater hTo)
  | case2 taken n hFree =>
      rw [firstFree_of_free hFree] at hTo
      omega

theorem temporaries_self (n : Nat) : temporaries scope n n = [] := by
  rw [temporaries, Nat.sub_self]
  rfl

/-- The temporary taken next comes first. -/
theorem temporaries_step {n last : Nat} (hLast : firstFree scope.takenNames n < last) :
    temporaries scope n last = tempName (firstFree scope.takenNames n) ::
      temporaries scope (firstFree scope.takenNames n + 1) last := by
  have hFrom := firstFree_ge scope.takenNames n
  have hFree := tempName_firstFree scope.takenNames n
  have hSkipped : ((List.range' n (firstFree scope.takenNames n - n)).map tempName).filter
      (fun name => name ∉ scope.takenNames) = [] := by
    rw [List.filter_eq_nil_iff]
    intro name hName
    obtain ⟨m, hm, rfl⟩ := List.mem_map.mp hName
    obtain ⟨hFirst, hBelow⟩ := List.mem_range'_1.mp hm
    simpa using taken_of_lt_firstFree hFirst (by omega)
  have hSplit : List.range' n (last - n) = List.range' n (firstFree scope.takenNames n - n) ++
      firstFree scope.takenNames n :: List.range' (firstFree scope.takenNames n + 1)
        (last - (firstFree scope.takenNames n + 1)) := by
    rw [show last - n = firstFree scope.takenNames n - n + (last - firstFree scope.takenNames n) by
        omega, ← List.range'_append_1, Nat.add_sub_cancel' hFrom,
      show last - firstFree scope.takenNames n = last - (firstFree scope.takenNames n + 1) + 1 by
        omega, List.range'_succ]
  rw [temporaries, hSplit, List.map_append, List.filter_append, hSkipped, List.map_cons,
    List.nil_append, List.filter_cons_of_pos (by simpa using hFree)]
  rfl

namespace Takes

variable {names names' : List String} {middle : Fresh}

/-- What is taken on the way from one state to the next is put together in order. -/
theorem append (hFirst : Takes scope fresh names middle) (hRest : Takes scope middle names' fresh') :
    Takes scope fresh (names ++ names') fresh' := by
  induction hFirst with
  | nil fresh => exact hRest
  | temp hTemp _ ih => exact .temp hTemp (ih hRest)
  | label hLabel _ ih => exact .label hLabel (ih hRest)

theorem newTemp {name : String} (h : scope.newTemp.run fresh = .ok name fresh') :
    Takes scope fresh [name] fresh' := .temp h (.nil fresh')

theorem nextTemp_le (h : Takes scope fresh names fresh') : fresh.nextTemp ≤ fresh'.nextTemp := by
  induction h with
  | nil fresh => exact Nat.le_refl _
  | temp hTemp _ ih => exact Nat.le_trans (newTemp_nextTemp hTemp) ih
  | label hLabel _ ih =>
      cases hLabel
      exact ih

/-- What is taken between two states does not depend on how it is taken: it is all that is free between
their numbers, in order. -/
theorem eq_temporaries (h : Takes scope fresh names fresh') :
    names = temporaries scope fresh.nextTemp fresh'.nextTemp := by
  induction h with
  | nil fresh => exact (temporaries_self _).symm
  | temp hTemp hRest ih =>
      have hLast := hRest.nextTemp_le
      rw [newTemp_run] at hTemp
      cases hTemp
      rw [ih, temporaries_step hLast]
  | label hLabel _ ih =>
      cases hLabel
      exact ih

/-- Every temporary taken has a name that nothing declares and a number between the two states. -/
theorem number (h : Takes scope fresh names fresh') {name : String} (hName : name ∈ names) :
    name ∉ scope.takenNames ∧
      ∃ n, fresh.nextTemp ≤ n ∧ n < fresh'.nextTemp ∧ name = tempName n := by
  have hLe := h.nextTemp_le
  rw [h.eq_temporaries, temporaries, List.mem_filter, List.mem_map] at hName
  obtain ⟨⟨n, hn, rfl⟩, hFree⟩ := hName
  obtain ⟨hFirst, hLast⟩ := List.mem_range'_1.mp hn
  exact ⟨by simpa using hFree, n, hFirst, by omega, rfl⟩

theorem nodup (h : Takes scope fresh names fresh') : names.Nodup := by
  rw [h.eq_temporaries]
  exact (List.Nodup.map (fun _ _ => tempName_injective) List.nodup_range').filter _

end Takes

/-- Lowering the expression takes temporaries, and its code stores into these only. No variable of the
program is among them. -/
def KeepsToOwn (scope : Scope) (e : Expr) : Prop :=
  ∀ (use : Use) (fresh : Fresh) (l : Lowered) (fresh' : Fresh),
    (expr scope e use).run fresh = .ok l fresh' →
      ∃ names, Takes scope fresh names fresh' ∧ StoresIn names l.code

/-- A value that is moved to a temporary takes one more, into which it is stored. One that may stay takes
and stores nothing. -/
theorem keepsToOwn_finish {middle : Fresh} {mayStay : Bool} {value : Instr} {code : List Instr}
    {l : Lowered} {names : List String} (hTakes : Takes scope fresh names middle)
    (hStores : StoresIn names code)
    (h : (finish scope mayStay value code).run middle = .ok l fresh') :
    ∃ names, Takes scope fresh names fresh' ∧ StoresIn names l.code := by
  rcases finish_run.mp h with ⟨_, rfl, rfl⟩ | ⟨_, name, hTemp, rfl⟩
  · exact ⟨names, hTakes, hStores⟩
  · refine ⟨names ++ [name], hTakes.append (.newTemp hTemp), hStores.append (.single ?_)⟩
    rintro _ ⟨⟩
    exact List.mem_singleton_self _

theorem storesIn_fillArray {array : String} {values : List Operand} {code : List Instr}
    (h : (fillArray array values).run fresh = .ok code fresh') : StoresIn [array] code := by
  obtain ⟨_, rfl, _⟩ := fillArray_run.mp h
  intro i hi name hName
  rcases List.mem_cons.mp hi with rfl | hi
  · cases hName
    exact List.mem_singleton_self _
  · obtain ⟨place, hPlace, rfl⟩ := List.mem_mapIdx.mp hi
    cases hName
    exact List.mem_singleton_self _

/-- What holds of all uses of an expression holds of its use as an operand. -/
theorem KeepsToOwn.operand {e : Expr} (he : KeepsToOwn scope e) {o : Operand} {code : List Instr}
    (h : (operand scope e).run fresh = .ok (o, code) fresh') :
    ∃ names, Takes scope fresh names fresh' ∧ StoresIn names code :=
  he _ _ _ _ (operand_run.mp h)

theorem KeepsToOwn.condition {e : Expr} (he : KeepsToOwn scope e) {c : Condition}
    {code : List Instr} (h : (condition scope e).run fresh = .ok (c, code) fresh') :
    ∃ names, Takes scope fresh names fresh' ∧ StoresIn names code := by
  obtain ⟨_, hLower, _⟩ := condition_run.mp h
  exact he _ _ _ _ hLower

theorem KeepsToOwn.operands {es : List Expr} (hes : ∀ e ∈ es, KeepsToOwn scope e)
    {values : List Operand} {code : List Instr}
    (h : (operands scope es).run fresh = .ok (values, code) fresh') :
    ∃ names, Takes scope fresh names fresh' ∧ StoresIn names code := by
  induction es generalizing fresh values code with
  | nil =>
      obtain ⟨_, rfl, rfl⟩ := operands_nil_run.mp h
      exact ⟨[], .nil _, .nil⟩
  | cons e rest ih =>
      obtain ⟨hHead, hRest⟩ := List.forall_mem_cons.mp hes
      obtain ⟨_, _, _, _, _, hFirst, hOthers, _, rfl⟩ := operands_cons_run.mp h
      obtain ⟨_, hTakes, hStores⟩ := hHead.operand hFirst
      obtain ⟨_, hTakes', hStores'⟩ := ih hRest hOthers
      exact ⟨_, hTakes.append hTakes', hStores.append hStores'⟩

theorem keepsToOwn_collect {arity : Option Nat} {arguments : List Expr} {os values : List Operand}
    {code : List Instr}
    (h : (collect scope arity arguments os).run fresh = .ok (values, code) fresh') :
    ∃ names, Takes scope fresh names fresh' ∧ StoresIn names code := by
  rcases collect_run.mp h with ⟨_, _, rfl, rfl⟩ | ⟨_, _, _, _, hTemp, hFill, _⟩
  · exact ⟨[], .nil _, .nil⟩
  · exact ⟨_, .newTemp hTemp, storesIn_fillArray hFill⟩

/-- Every expression keeps to its own temporaries, by induction on the expression. Whatever its parts
take is part of what it takes. -/
theorem keepsToOwn (scope : Scope) (e : Expr) : KeepsToOwn scope e := by
  induction e with
  | intLiteral value | boolLiteral value | self ty =>
      intro use fresh l fresh' h
      obtain ⟨rfl, rfl⟩ := run_pure_ok.mp h
      exact ⟨[], .nil _, .nil⟩
  | ident name ty =>
      intro use fresh l fresh' h
      rcases identifier_run.mp h with ⟨_, _, rfl, rfl⟩ | ⟨_, _, _, hFinish⟩ | ⟨_, _, _, rfl, rfl⟩
      · exact ⟨[], .nil _, .nil⟩
      · exact keepsToOwn_finish (.nil _) .nil hFinish
      · exact ⟨[], .nil _, .nil⟩
  | index base place ty hBase hPlace =>
      intro use fresh l fresh' h
      obtain ⟨_, _, _, _, _, _, _, hLowerBase, hLowerPlace, _, hFinish⟩ := expr_index_run.mp h
      obtain ⟨_, hTakes, hStores⟩ := hBase.operand hLowerBase
      obtain ⟨_, hTakes', hStores'⟩ := hPlace.operand hLowerPlace
      exact keepsToOwn_finish (hTakes.append hTakes') (hStores.append hStores') hFinish
  | paren inner hInner => exact hInner
  | not operand hOperand =>
      intro use fresh l fresh' h
      obtain ⟨_, _, _, hLower, hFinish⟩ := expr_not_run.mp h
      obtain ⟨_, hTakes, hStores⟩ := hOperand.operand hLower
      exact keepsToOwn_finish hTakes hStores hFinish
  | newArray size hSize =>
      intro use fresh l fresh' h
      obtain ⟨_, _, _, hLower, hFinish⟩ := expr_newArray_run.mp h
      obtain ⟨_, hTakes, hStores⟩ := hSize.operand hLower
      exact keepsToOwn_finish hTakes hStores hFinish
  | newObject className =>
      intro use fresh l fresh' h
      obtain ⟨object, hTemp, rfl⟩ := expr_newObject_run.mp h
      refine ⟨[object], .newTemp hTemp, ?_⟩
      intro i hi name hName
      rcases List.mem_cons.mp hi with rfl | hi
      · cases hName
        exact List.mem_singleton_self _
      · obtain rfl := List.mem_singleton.mp hi
        cases hName
  | arrayLiteral elements hElements =>
      intro use fresh l fresh' h
      obtain ⟨_, _, _, _, _, hLower, hTemp, hFill, rfl⟩ := expr_arrayLiteral_run.mp h
      obtain ⟨_, hTakes, hStores⟩ := KeepsToOwn.operands hElements hLower
      exact ⟨_, hTakes.append (.newTemp hTemp), hStores.append (storesIn_fillArray hFill)⟩
  | binary op left right ty hLeft hRight =>
      intro use fresh l fresh' h
      by_cases hOp : op = .and
      · subst hOp
        obtain ⟨_, _, fresh₁, _, fresh₂, result, fresh₃, _, _, hLowerLeft, hLabels, hTemp, hLowerRight,
          rfl⟩ := expr_and_run.mp h
        rw [newIfLabels_run] at hLabels
        obtain ⟨rfl, rfl⟩ := hLabels
        obtain ⟨leftNames, hTakes, hStores⟩ := hLeft.condition hLowerLeft
        obtain ⟨rightNames, hTakes', hStores'⟩ := hRight.operand hLowerRight
        refine ⟨leftNames ++ result :: rightNames,
          hTakes.append (.label rfl (.temp hTemp hTakes')), hStores.append ?_⟩
        intro i hi name hName
        simp only [shortCircuit, List.mem_append, List.mem_cons, List.not_mem_nil, or_false] at hi
        rcases hi with ((rfl | rfl | rfl | rfl) | hi) | rfl | rfl <;> try cases hName
        · exact List.mem_cons_self
        · exact List.mem_cons_of_mem _ (hStores' i hi name hName)
        · exact List.mem_cons_self
      · obtain ⟨_, _, _, _, _, _, hLowerLeft, hLowerRight, hFinish⟩ := (expr_binary_run hOp).mp h
        obtain ⟨_, hTakes, hStores⟩ := hLeft.operand hLowerLeft
        obtain ⟨_, hTakes', hStores'⟩ := hRight.operand hLowerRight
        exact keepsToOwn_finish (hTakes.append hTakes') (hStores.append hStores') hFinish
  | call receiver method arguments ty hReceiver hArguments =>
      intro use fresh l fresh' h
      cases hLength : asksLength receiver method arguments with
      | true =>
          obtain ⟨_, _, _, hLower, hFinish⟩ := (expr_length_run hLength).mp h
          obtain ⟨_, hTakes, hStores⟩ := hReceiver.operand hLower
          exact keepsToOwn_finish hTakes hStores hFinish
      | false =>
          obtain ⟨_, _, code, fresh₁, _, _, _, _, _, _, hTarget, hLower, hCollect, hFinish⟩ :=
            (expr_call_run hLength).mp h
          obtain ⟨_, hTakes₁, hStores₁⟩ :
              ∃ names, Takes scope fresh names fresh₁ ∧ StoresIn names code := by
            rcases callTarget_run.mp hTarget with ⟨_, _, _, _, rfl, rfl⟩ | ⟨_, _, hObject⟩
            · exact ⟨[], .nil _, .nil⟩
            · exact hReceiver.operand hObject
          obtain ⟨_, hTakes₂, hStores₂⟩ := KeepsToOwn.operands hArguments hLower
          obtain ⟨_, hTakes₃, hStores₃⟩ := keepsToOwn_collect hCollect
          exact keepsToOwn_finish ((hTakes₁.append hTakes₂).append hTakes₃)
            ((hStores₁.append hStores₂).append hStores₃) ((finishCall_run rfl).mp hFinish).2

/-- Code that gives values to declared variables and to the variables of a list only. -/
def WritesIn (declared : Set String) (names : List String) (code : List Instr) : Prop :=
  ∀ i ∈ code, ∀ name, i.writes? = some name → name ∈ declared ∨ name ∈ names

section Statements

variable {declared : Set String} {names names' : List String} {code rest : List Instr}

/-- Code one after the other writes declared variables and the temporaries of both lists. -/
theorem WritesIn.append (hCode : WritesIn declared names code) (hRest : WritesIn declared names' rest) :
    WritesIn declared (names ++ names') (code ++ rest) := by
  intro i hi name hName
  rcases List.mem_append.mp hi with hi | hi
  · exact (hCode i hi name hName).imp_right (List.mem_append_left _)
  · exact (hRest i hi name hName).imp_right (List.mem_append_right _)

theorem WritesIn.snoc (hCode : WritesIn declared names code) (i : Instr)
    (hi : ∀ name, i.writes? = some name → name ∈ declared) :
    WritesIn declared names (code ++ [i]) := by
  intro j hj name hName
  rcases List.mem_append.mp hj with hj | hj
  · exact hCode j hj name hName
  · obtain rfl := List.mem_singleton.mp hj
    exact .inl (hi name hName)

end Statements

/-- A method, its code, and the temporaries that were taken for it, in the order in which they were
taken. -/
structure Record where
  decl : MethodDecl
  method : Code.Method
  names : List String

/-- Methods that are lowered one after the other, with what each of them takes. Each begins with the
numbers that the one before it has left. -/
inductive Records (program : Program) : Fresh → List Record → Fresh → Prop
  | nil (fresh : Fresh) : Records program fresh [] fresh
  | cons {fresh middle last : Fresh} {record : Record} {rest : List Record}
      (hMethod : (method (.ofProgram program) record.decl).run fresh = .ok record.method middle)
      (hTakes : Takes (record.decl.scope program) fresh record.names middle)
      (hRest : Records program middle rest last) : Records program fresh (record :: rest) last

namespace Records

variable {program : Program} {records : List Record}

theorem number (h : Records program fresh records fresh') {name : String}
    (hName : name ∈ records.flatMap (·.names)) : ∃ n, fresh.nextTemp ≤ n ∧ name = tempName n := by
  induction h with
  | nil fresh => cases hName
  | cons _ hTakes _ ih =>
      rw [List.flatMap_cons, List.mem_append] at hName
      rcases hName with hName | hName
      · obtain ⟨_, n, hFrom, _, hNumber⟩ := hTakes.number hName
        exact ⟨n, hFrom, hNumber⟩
      · obtain ⟨n, hFrom, hNumber⟩ := ih hName
        exact ⟨n, Nat.le_trans hTakes.nextTemp_le hFrom, hNumber⟩

/-- The numbers run on from one method to the next, so no two share a temporary, and none takes a
temporary twice. -/
theorem nodup (h : Records program fresh records fresh') :
    (records.flatMap (·.names)).Nodup := by
  induction h with
  | nil fresh => exact List.nodup_nil
  | cons _ hTakes hRest ih =>
      rw [List.flatMap_cons]
      refine hTakes.nodup.append ih fun name hName hLater => ?_
      obtain ⟨_, m, _, hBelow, rfl⟩ := hTakes.number hName
      obtain ⟨n, hFrom, hSame⟩ := hRest.number hLater
      obtain rfl := tempName_injective hSame
      omega

/-- Each method was lowered between two states, with the temporaries recorded for it. The record is not
chosen freely: the states determine it. -/
theorem taken (h : Records program fresh records fresh') {record : Record}
    (hRecord : record ∈ records) : ∃ first middle,
      (method (.ofProgram program) record.decl).run first = .ok record.method middle ∧
        Takes (record.decl.scope program) first record.names middle := by
  induction h with
  | nil fresh => cases hRecord
  | cons hMethod hTakes _ ih =>
      rcases List.mem_cons.mp hRecord with rfl | hLater
      · exact ⟨_, _, hMethod, hTakes⟩
      · exact ih hLater

end Records

namespace Both

/-- `static boolean both(boolean a, boolean b) { boolean tmp0; tmp0 = a && b; return tmp0; }`. -/
def source : MethodDecl where
  name := "both"
  isPublic := false
  isStatic := true
  returnType := .boolean
  parameters := [.plain "a" .boolean, .plain "b" .boolean]
  locals := [.plain "tmp0" .boolean]
  body := [
    .assign (.ident "tmp0" .boolean)
      (.ofBinary .and (.ident "a" .boolean) (.ident "b" .boolean)),
    .ret (some (.ident "tmp0" .boolean))]

def program : Program := ⟨[], ⟨"Both", none, [], [source]⟩⟩

/-- The result of `&&` is in the second temporary, and is copied into the local variable. -/
def code : List Instr :=
  let result := Operand.variable "tmp1" .boolean
  let both := Operand.variable "tmp0" .boolean
  [.branch (.single (.variable "a" .boolean)) ⟨.ifBody, 0⟩,
    .assign result .boolean (.operand (.bool false)),
    .goto ⟨.endIf, 0⟩,
    .label ⟨.ifBody, 0⟩,
    .assign result .boolean (.operand (.variable "b" .boolean)),
    .label ⟨.endIf, 0⟩,
    .assign both .boolean (.operand result),
    .ret (some both) .boolean]

def lowered : Code.Method where
  name := "both"
  isPublic := false
  isStatic := true
  isVarargs := false
  parameters := [⟨"a", .boolean⟩, ⟨"b", .boolean⟩]
  returnType := .boolean
  body := code

def unit : Code.ClassUnit := ⟨"Both", none, [], [], [lowered], true⟩

/-- The local variable has the name of the first temporary, so the second is taken. -/
theorem takes_second (fresh : Fresh) (hFresh : fresh.nextTemp = 0) :
    (source.scope program).newTemp.run fresh = .ok "tmp1" { fresh with nextTemp := 2 } := by
  have hTaken : (source.scope program).takenNames = ["tmp0", "a", "b"] := by rfl
  have hFirst : firstFree ["tmp0", "a", "b"] 0 = 1 := by
    have hNames : tempName 0 = "tmp0" ∧ tempName 1 = "tmp1" := by decide
    rw [firstFree, hNames.1, if_pos (by simp), firstFree, Nat.zero_add, hNames.2,
      if_neg (by simp)]
  rw [newTemp_run, hTaken, hFresh, hFirst]
  rfl

/-- Lowering the method takes the numbers 0 and 1 and leaves the first of them to the local variable. -/
theorem run : (method (.ofProgram program) source).run .start = .ok lowered ⟨2, 1⟩ := by
  have hAnd : (expr (source.scope program)
      (.ofBinary .and (.ident "a" .boolean) (.ident "b" .boolean)) .assignRhs).run .start =
      .ok ⟨.operand (.variable "tmp1" .boolean), code.take 6⟩ ⟨2, 1⟩ :=
    expr_and_run.mpr ⟨.single (.variable "a" .boolean), [], .start, _, ⟨0, 1⟩, "tmp1", ⟨2, 1⟩,
      .variable "b" .boolean, [], by rfl, rfl, takes_second _ rfl, by rfl, rfl⟩
  refine method_run.mpr ⟨.ofMethod source, code, rfl, ?_, rfl⟩
  refine stmts_cons_run.mpr ⟨code.take 7, ⟨2, 1⟩, code.drop 7, ?_, by rfl, rfl⟩
  exact assign_run.mpr (.inl ⟨"tmp0", .boolean, rfl, assignName_run.mpr
    (.inl ⟨.plain "tmp0" .boolean, _, rfl, hAnd, rfl⟩)⟩)

theorem ofProgram_eq : ofProgram true program = .ok unit :=
  ofProgram_ok.mpr ⟨[lowered], ⟨2, 1⟩, methods_cons_run.mpr
    ⟨lowered, ⟨2, 1⟩, [], run, methods_nil_run.mpr ⟨rfl, rfl⟩, rfl⟩, rfl⟩

end Both

end MiniJava.Lowering
