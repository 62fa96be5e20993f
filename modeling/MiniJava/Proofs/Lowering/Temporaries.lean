import MiniJava.Proofs.Lowering.Runs
import MiniJava.Proofs.Source.Induction
import Std.Data.String.ToNat

/-! Which temporaries lowering takes: their numbers only grow, their names are none that the method
or its class declares, and the operand that an expression gives is none that later code writes. -/

namespace MiniJava.Lowering

open Code (Instr Operand)
open Source (Expr)

variable {scope : Scope} {fresh fresh' : Fresh}

theorem tempName_injective {m n : Nat} (h : tempName m = tempName n) : m = n := by
  have hText : m.repr = n.repr := (String.append_right_inj "tmp").mp h
  exact Nat.repr_injective hText

theorem firstFree_of_free {taken : List String} {n : Nat} (h : tempName n ∉ taken) :
    firstFree taken n = n := by
  rw [firstFree, if_neg h]

theorem firstFree_ge (taken : List String) (n : Nat) : n ≤ firstFree taken n := by
  induction taken, n using firstFree.induct with
  | case1 taken n hTaken ih =>
      rw [firstFree, if_pos hTaken]
      omega
  | case2 taken n hFree => exact Nat.le_of_eq (firstFree_of_free hFree).symm

theorem tempName_firstFree (taken : List String) (n : Nat) :
    tempName (firstFree taken n) ∉ taken := by
  induction taken, n using firstFree.induct with
  | case1 taken n hTaken ih =>
      rw [firstFree, if_pos hTaken]
      intro hMem
      have hLater := firstFree_ge (taken.erase (tempName n)) (n + 1)
      have hOther : tempName (firstFree (taken.erase (tempName n)) (n + 1)) ≠ tempName n := by
        intro hSame
        have hNumber := tempName_injective hSame
        omega
      exact ih ((List.mem_erase_of_ne hOther).mpr hMem)
  | case2 taken n hFree => rwa [firstFree_of_free hFree]

/-- What taking a temporary amounts to: a number from the next one on, with a name that is not taken, and
later numbers only from then on. -/
theorem newTemp_ok {name : String} (h : scope.newTemp.run fresh = .ok name fresh') :
    ∃ n, fresh.nextTemp ≤ n ∧ name = tempName n ∧ name ∉ scope.takenNames ∧
      fresh'.nextTemp = n + 1 := by
  rw [newTemp_run] at h
  obtain ⟨rfl, rfl⟩ := h
  exact ⟨_, firstFree_ge _ _, rfl, tempName_firstFree _ _, rfl⟩

/-- The names of the temporaries that may be taken from number `first` on. The later the number, the
fewer they are. -/
def Scratch (scope : Scope) (first : Nat) (name : String) : Prop :=
  name ∉ scope.takenNames ∧ ∃ n, first ≤ n ∧ name = tempName n

theorem Scratch.mono {first second : Nat} {name : String} (hLe : first ≤ second)
    (h : Scratch scope second name) : Scratch scope first name := by
  obtain ⟨hFree, n, hNumber, rfl⟩ := h
  exact ⟨hFree, n, by omega, rfl⟩

theorem Scratch.of_newTemp {name : String} (h : scope.newTemp.run fresh = .ok name fresh') :
    Scratch scope fresh.nextTemp name := by
  obtain ⟨n, hNumber, rfl, hFree, -⟩ := newTemp_ok h
  exact ⟨hFree, n, hNumber, rfl⟩

theorem newTemp_not_scratch {name : String} (h : scope.newTemp.run fresh = .ok name fresh') :
    ¬Scratch scope fresh'.nextTemp name := by
  obtain ⟨n, -, rfl, -, hNext⟩ := newTemp_ok h
  rintro ⟨-, m, hLe, hName⟩
  have hNumber := tempName_injective hName
  omega

theorem newTemp_nextTemp {name : String} (h : scope.newTemp.run fresh = .ok name fresh') :
    fresh.nextTemp ≤ fresh'.nextTemp := by
  obtain ⟨n, hNumber, -, -, hNext⟩ := newTemp_ok h
  omega

/-- The names of a method and of its class are never scratch. -/
theorem not_scratch_of_taken {first : Nat} {name : String} (h : name ∈ scope.takenNames) :
    ¬Scratch scope first name := fun hScratch => hScratch.1 h

theorem lookup_mem_takenNames {name : String} {d : Source.Declaration}
    (h : scope.method.lookup? name = some d) : name ∈ scope.takenNames := by
  have hLookup : (scope.method.localVariable? name).or (scope.method.parameter? name) = some d := h
  have hFound : ∀ {ds : List Source.Declaration},
      Source.declaration? ds name = some d → name ∈ ds.map (·.name) := by
    intro ds hFind
    have hName := List.find?_some hFind
    simp only [decide_eq_true_eq] at hName
    exact List.mem_map.mpr ⟨d, List.mem_of_find?_eq_some hFind, hName⟩
  simp only [Scope.takenNames, List.map_append, List.mem_append]
  cases hLocal : scope.method.localVariable? name with
  | some d' =>
      rw [hLocal] at hLookup
      obtain rfl : d' = d := by simpa using hLookup
      exact .inl (.inl (hFound hLocal))
  | none =>
      rw [hLocal, Option.none_or] at hLookup
      exact .inl (.inr (hFound hLookup))

/-- An operand whose value no code changes that takes its temporaries from number `next` on. An item
of an array is none: it is read where it stands. -/
def Settled (scope : Scope) (next : Nat) : Operand → Prop
  | .literal _ _ | .self _ | .classRef _ => True
  | .variable name _ => ¬Scratch scope next name
  | .element _ _ _ => False

/-- What is safe from code with some temporaries is safe from code with later ones, since the later are
among those that could have been taken before. -/
theorem Settled.mono {first second : Nat} {o : Operand} (hLe : first ≤ second)
    (h : Settled scope first o) : Settled scope second o := by
  cases o with
  | «variable» name ty => exact fun hScratch => h (hScratch.mono hLe)
  | element array place ty => exact h
  | _ => trivial

/-- The instruction is settled if it is an operand that can stand anywhere. Other instructions are used
at once and need not be. -/
def Lowered.Settles (scope : Scope) (next : Nat) (l : Lowered) : Prop :=
  ∀ o, l.value = .operand o → o.isElement = false → Settled scope next o

theorem Settled.settles {next : Nat} {l : Lowered} {o : Operand} (hValue : l.value = .operand o)
    (h : Settled scope next o) : l.Settles scope next := by
  intro o' hOperand _
  obtain rfl := Instr.operand.inj (hValue.symm.trans hOperand)
  exact h

theorem settles_finish {mayStay : Bool} {value : Instr} {code : List Instr} {l : Lowered}
    (hValue : isPlain value = false) (h : (finish scope mayStay value code).run fresh = .ok l fresh') :
    fresh.nextTemp ≤ fresh'.nextTemp ∧ l.Settles scope fresh'.nextTemp := by
  rcases finish_run.mp h with ⟨_, rfl, rfl⟩ | ⟨_, name, hTemp, rfl⟩
  · refine ⟨Nat.le_refl _, ?_⟩
    intro o hOperand hElement
    simp [isPlain, show value = .operand o from hOperand, hElement] at hValue
  · exact ⟨newTemp_nextTemp hTemp, .settles rfl (newTemp_not_scratch hTemp)⟩

theorem finish_isElement {fresh fresh' : Fresh} {value : Instr} {code : List Instr} {l : Lowered}
    (h : (finish scope false value code).run fresh = .ok l fresh') (o : Operand)
    (hOperand : l.value = .operand o) : o.isElement = false := by
  rcases finish_run.mp h with ⟨hPlain, rfl, rfl⟩ | ⟨_, name, _, rfl⟩
  · rw [show value = .operand o from hOperand] at hPlain
    simpa [isPlain] using hPlain
  · obtain rfl := Instr.operand.inj hOperand
    rfl

/-- An item of an array stays where it is read only as a right-hand side. In every other use it is moved
to a temporary first. -/
theorem expr_isElement {e : Expr} {use : Use} {fresh fresh' : Fresh} {l : Lowered}
    (hUse : use ≠ .assignRhs) (h : (expr scope e use).run fresh = .ok l fresh') (o : Operand)
    (hOperand : l.value = .operand o) : o.isElement = false := by
  have hStay : decide (use = .assignRhs) = false := decide_eq_false hUse
  induction e generalizing fresh with
  | intLiteral value | boolLiteral value | self ty =>
      obtain ⟨rfl, rfl⟩ := run_pure_ok.mp h
      obtain rfl := Instr.operand.inj hOperand
      rfl
  | ident name ty =>
      rcases identifier_run.mp h with ⟨_, _, rfl, rfl⟩ | ⟨_, _, _, hFinish⟩ | ⟨_, _, _, rfl, rfl⟩
      · obtain rfl := Instr.operand.inj hOperand
        rfl
      · exact finish_isElement hFinish o hOperand
      · obtain rfl := Instr.operand.inj hOperand
        rfl
  | index base place ty =>
      obtain ⟨_, _, _, _, _, _, _, _, _, _, hFinish⟩ := expr_index_run.mp h
      rw [hStay] at hFinish
      exact finish_isElement hFinish o hOperand
  | paren inner ih => exact ih h
  | not operand =>
      obtain ⟨_, _, _, _, hFinish⟩ := expr_not_run.mp h
      rw [hStay] at hFinish
      exact finish_isElement hFinish o hOperand
  | newArray size =>
      obtain ⟨_, _, _, _, hFinish⟩ := expr_newArray_run.mp h
      rw [hStay] at hFinish
      exact finish_isElement hFinish o hOperand
  | newObject className =>
      obtain ⟨_, _, rfl⟩ := expr_newObject_run.mp h
      obtain rfl := Instr.operand.inj hOperand
      rfl
  | arrayLiteral elements =>
      obtain ⟨_, _, _, _, _, _, _, _, rfl⟩ := expr_arrayLiteral_run.mp h
      obtain rfl := Instr.operand.inj hOperand
      rfl
  | binary op left right ty =>
      by_cases hOp : op = .and
      · subst hOp
        obtain ⟨_, _, _, _, _, _, _, _, _, _, _, _, _, rfl⟩ := expr_and_run.mp h
        obtain rfl := Instr.operand.inj hOperand
        rfl
      · obtain ⟨_, _, _, _, _, _, _, _, hFinish⟩ := (expr_binary_run hOp).mp h
        rcases finish_run.mp hFinish with ⟨_, rfl, _⟩ | ⟨_, name, _, rfl⟩
        · cases hOperand
        · obtain rfl := Instr.operand.inj hOperand
          rfl
  | call receiver method arguments ty =>
      cases hLength : asksLength receiver method arguments with
      | true =>
          obtain ⟨_, _, _, _, hFinish⟩ := (expr_length_run hLength).mp h
          rw [hStay] at hFinish
          exact finish_isElement hFinish o hOperand
      | false =>
          obtain ⟨_, _, _, _, _, _, _, _, _, _, _, _, _, hFinish⟩ := (expr_call_run hLength).mp h
          rcases finish_run.mp ((finishCall_run rfl).mp hFinish).2 with
            ⟨_, rfl, _⟩ | ⟨_, name, _, rfl⟩
          · cases hOperand
          · obtain rfl := Instr.operand.inj hOperand
            rfl

/-- Lowering an expression takes temporaries in order, and its operand is settled afterwards. So what is
lowered later does not change an operand that is there. -/
def Orderly (scope : Scope) (e : Expr) : Prop :=
  ∀ (use : Use) (fresh : Fresh) (l : Lowered) (fresh' : Fresh),
    (expr scope e use).run fresh = .ok l fresh' →
      fresh.nextTemp ≤ fresh'.nextTemp ∧ l.Settles scope fresh'.nextTemp

theorem Orderly.operand {e : Expr} (he : Orderly scope e) {o : Operand} {code : List Instr}
    (h : (operand scope e).run fresh = .ok (o, code) fresh') :
    fresh.nextTemp ≤ fresh'.nextTemp := (he _ _ _ _ (operand_run.mp h)).1

theorem Orderly.condition {e : Expr} (he : Orderly scope e) {c : Code.Condition}
    {code : List Instr} (h : (condition scope e).run fresh = .ok (c, code) fresh') :
    fresh.nextTemp ≤ fresh'.nextTemp := by
  obtain ⟨value, hLower, -⟩ := condition_run.mp h
  exact (he _ _ _ _ hLower).1

theorem Orderly.operands {es : List Expr} (hes : ∀ e ∈ es, Orderly scope e)
    {values : List Operand} {code : List Instr}
    (h : (operands scope es).run fresh = .ok (values, code) fresh') :
    fresh.nextTemp ≤ fresh'.nextTemp := by
  induction es generalizing fresh values code with
  | nil =>
      obtain ⟨-, -, rfl⟩ := operands_nil_run.mp h
      exact Nat.le_refl _
  | cons e rest ih =>
      obtain ⟨hHead, hRest⟩ := List.forall_mem_cons.mp hes
      obtain ⟨o, headCode, fresh₁, os, restCode, hFirst, hOthers, -, -⟩ := operands_cons_run.mp h
      exact Nat.le_trans (hHead.operand hFirst) (ih hRest hOthers)

theorem collect_nextTemp {arity : Option Nat} {arguments : List Expr} {os values : List Operand}
    {code : List Instr}
    (h : (collect scope arity arguments os).run fresh = .ok (values, code) fresh') :
    fresh.nextTemp ≤ fresh'.nextTemp := by
  rcases collect_run.mp h with ⟨_, _, _, rfl⟩ | ⟨_, array, _, _, hTemp, _, _⟩
  · exact Nat.le_refl _
  · exact newTemp_nextTemp hTemp

theorem orderly (scope : Scope) (e : Expr) : Orderly scope e := by
  induction e with
  | intLiteral value | boolLiteral value | self ty =>
      intro use fresh l fresh' h
      obtain ⟨rfl, rfl⟩ := run_pure_ok.mp h
      exact ⟨Nat.le_refl _, .settles rfl trivial⟩
  | ident name ty =>
      intro use fresh l fresh' h
      rcases identifier_run.mp h with ⟨d, hLookup, rfl, rfl⟩ | ⟨_, _, _, hFinish⟩ | ⟨_, _, _, rfl, rfl⟩
      · have hTaken := lookup_mem_takenNames hLookup
        exact ⟨Nat.le_refl _, .settles rfl (not_scratch_of_taken hTaken)⟩
      · exact settles_finish rfl hFinish
      · exact ⟨Nat.le_refl _, .settles rfl trivial⟩
  | index base place ty hBase hPlace =>
      intro use fresh l fresh' h
      obtain ⟨_, _, _, _, _, _, _, hLowerBase, hLowerPlace, _, hFinish⟩ := expr_index_run.mp h
      obtain ⟨hStep, hSettles⟩ := settles_finish rfl hFinish
      have hBaseStep := hBase.operand hLowerBase
      have hPlaceStep := hPlace.operand hLowerPlace
      exact ⟨by omega, hSettles⟩
  | paren inner hInner => exact hInner
  | not operand hOperand =>
      intro use fresh l fresh' h
      obtain ⟨_, _, _, hLower, hFinish⟩ := expr_not_run.mp h
      obtain ⟨hStep, hSettles⟩ := settles_finish rfl hFinish
      exact ⟨Nat.le_trans (hOperand.operand hLower) hStep, hSettles⟩
  | newArray size hSize =>
      intro use fresh l fresh' h
      obtain ⟨_, _, _, hLower, hFinish⟩ := expr_newArray_run.mp h
      obtain ⟨hStep, hSettles⟩ := settles_finish rfl hFinish
      exact ⟨Nat.le_trans (hSize.operand hLower) hStep, hSettles⟩
  | newObject className =>
      intro use fresh l fresh' h
      obtain ⟨object, hTemp, rfl⟩ := expr_newObject_run.mp h
      exact ⟨newTemp_nextTemp hTemp, .settles rfl (newTemp_not_scratch hTemp)⟩
  | arrayLiteral elements hElements =>
      intro use fresh l fresh' h
      obtain ⟨_, _, _, _, _, hLower, hTemp, _, rfl⟩ := expr_arrayLiteral_run.mp h
      have hElementsStep := Orderly.operands hElements hLower
      exact ⟨Nat.le_trans hElementsStep (newTemp_nextTemp hTemp),
        .settles rfl (newTemp_not_scratch hTemp)⟩
  | binary op left right ty hLeft hRight =>
      intro use fresh l fresh' h
      by_cases hOp : op = .and
      · subst hOp
        obtain ⟨_, _, fresh₁, own, fresh₂, _, fresh₃, _, _, hLowerLeft, hLabels, hTemp, hLowerRight,
          rfl⟩ := expr_and_run.mp h
        rw [newIfLabels_run] at hLabels
        obtain ⟨rfl, rfl⟩ := hLabels
        have hLeftStep := hLeft.condition hLowerLeft
        have hTempStep := newTemp_nextTemp hTemp
        have hRightStep := hRight.operand hLowerRight
        -- the result is taken before the right operand, which takes its own after it
        have hResult := mt (Scratch.mono hRightStep) (newTemp_not_scratch hTemp)
        exact ⟨Nat.le_trans (Nat.le_trans hLeftStep hTempStep) hRightStep, .settles rfl hResult⟩
      · obtain ⟨_, _, _, _, _, _, hLowerLeft, hLowerRight, hFinish⟩ := (expr_binary_run hOp).mp h
        obtain ⟨hStep, hSettles⟩ := settles_finish rfl hFinish
        have hLeftStep := hLeft.operand hLowerLeft
        have hRightStep := hRight.operand hLowerRight
        exact ⟨by omega, hSettles⟩
  | call receiver method arguments ty hReceiver hArguments =>
      intro use fresh l fresh' h
      cases hLength : asksLength receiver method arguments with
      | true =>
          obtain ⟨_, _, _, hLower, hFinish⟩ := (expr_length_run hLength).mp h
          obtain ⟨hStep, hSettles⟩ := settles_finish rfl hFinish
          exact ⟨Nat.le_trans (hReceiver.operand hLower) hStep, hSettles⟩
      | false =>
          obtain ⟨_, _, _, fresh₁, _, _, _, _, _, _, hTarget, hLower, hCollect, hFinish⟩ :=
            (expr_call_run hLength).mp h
          have hTargetStep : fresh.nextTemp ≤ fresh₁.nextTemp := by
            rcases callTarget_run.mp hTarget with ⟨_, _, _, _, _, rfl⟩ | ⟨_, _, hObject⟩
            · exact Nat.le_refl _
            · exact hReceiver.operand hObject
          obtain ⟨hStep, hSettles⟩ := settles_finish rfl ((finishCall_run rfl).mp hFinish).2
          have hArgumentsStep := Orderly.operands hArguments hLower
          have hCollectStep := collect_nextTemp hCollect
          exact ⟨by omega, hSettles⟩

theorem operand_nextTemp {e : Expr} {o : Operand} {code : List Instr}
    (h : (operand scope e).run fresh = .ok (o, code) fresh') :
    fresh.nextTemp ≤ fresh'.nextTemp := (orderly scope e).operand h

theorem condition_nextTemp {e : Expr} {c : Code.Condition} {code : List Instr}
    (h : (condition scope e).run fresh = .ok (c, code) fresh') :
    fresh.nextTemp ≤ fresh'.nextTemp := (orderly scope e).condition h

theorem operands_nextTemp {es : List Expr} {values : List Operand} {code : List Instr}
    (h : (operands scope es).run fresh = .ok (values, code) fresh') :
    fresh.nextTemp ≤ fresh'.nextTemp := Orderly.operands (fun e _ => orderly scope e) h

/-- The operand of an expression keeps its value over all code that is lowered later: it is no item, and
later code stores into later temporaries. -/
theorem operand_settled {e : Expr} {o : Operand} {code : List Instr}
    (h : (operand scope e).run fresh = .ok (o, code) fresh') : Settled scope fresh'.nextTemp o := by
  have hLower := operand_run.mp h
  exact (orderly scope e _ _ _ _ hLower).2 o rfl (expr_isElement (by decide) hLower o rfl)

/-- The operands of a list of expressions keep their values over all code that is lowered later, the
earlier ones over the code of the later ones. -/
theorem operands_settled {es : List Expr} {os : List Operand} {code : List Instr}
    (h : (operands scope es).run fresh = .ok (os, code) fresh') :
    ∀ o ∈ os, Settled scope fresh'.nextTemp o := by
  induction es generalizing fresh os code with
  | nil =>
      obtain ⟨rfl, -, -⟩ := operands_nil_run.mp h
      exact List.forall_mem_nil _
  | cons e rest ih =>
      obtain ⟨o, headCode, fresh₁, os, restCode, hHead, hRest, rfl, -⟩ := operands_cons_run.mp h
      have hHeadSettled := (operand_settled hHead).mono (operands_nextTemp hRest)
      exact List.forall_mem_cons.mpr ⟨hHeadSettled, ih hRest⟩

end MiniJava.Lowering
