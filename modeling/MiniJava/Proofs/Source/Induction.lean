import MiniJava.Source.Syntax

/-! Induction over expressions and statements, whose parts stand in lists. Where a constructor has
a list of parts, the property may be assumed of each of them. -/

namespace MiniJava.Source

/-- Induction over expressions, with the hypothesis for each element of an array and each argument of a
call. -/
@[elab_as_elim, induction_eliminator]
theorem Expr.induction {motive : Expr → Prop}
    (intLiteral : ∀ value, motive (.intLiteral value))
    (boolLiteral : ∀ value, motive (.boolLiteral value))
    (ident : ∀ name ty, motive (.ident name ty))
    (self : ∀ ty, motive (.self ty))
    (index : ∀ base place ty, motive base → motive place → motive (.index base place ty))
    (paren : ∀ inner, motive inner → motive (.paren inner))
    (not : ∀ operand, motive operand → motive (.not operand))
    (newArray : ∀ size, motive size → motive (.newArray size))
    (newObject : ∀ className, motive (.newObject className))
    (arrayLiteral : ∀ elements, (∀ e ∈ elements, motive e) → motive (.arrayLiteral elements))
    (binary : ∀ op left right ty, motive left → motive right →
      motive (.binary op left right ty))
    (call : ∀ receiver method arguments ty, motive receiver → (∀ e ∈ arguments, motive e) →
      motive (.call receiver method arguments ty)) (e : Expr) : motive e :=
  @Expr.rec motive (fun es => ∀ e ∈ es, motive e) intLiteral boolLiteral ident self index paren not
    newArray newObject arrayLiteral binary call (by simp)
    (fun _ _ hHead hTail => List.forall_mem_cons.mpr ⟨hHead, hTail⟩) e

/-- Induction over statements, with the hypothesis for each statement of a block and for the branch that
may be missing. -/
@[elab_as_elim, induction_eliminator]
theorem Stmt.induction {motive : Stmt → Prop}
    (block : ∀ statements, (∀ s ∈ statements, motive s) → motive (.block statements))
    (cond : ∀ condition thenBranch elseBranch, motive thenBranch →
      (∀ s ∈ elseBranch, motive s) → motive (.cond condition thenBranch elseBranch))
    (loop : ∀ condition body, motive body → motive (.loop condition body))
    (assign : ∀ target value, motive (.assign target value))
    (ret : ∀ value, motive (.ret value))
    (eval : ∀ expr, motive (.eval expr)) (s : Stmt) : motive s :=
  @Stmt.rec motive (fun ss => ∀ s ∈ ss, motive s) (fun o => ∀ s ∈ o, motive s) block cond loop
    assign ret eval (by simp) (fun _ _ hHead hTail => List.forall_mem_cons.mpr ⟨hHead, hTail⟩)
    (by simp) (fun s hs => by simpa using hs) s

end MiniJava.Source
