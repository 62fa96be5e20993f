import MiniJava.Proofs.Labels.Lowered
import MiniJava.Proofs.Semantics.Code

/-!
Where control goes. A machine can only do one thing, so what comes before what is settled by its
states; and a part of the code that jumps to its own labels only runs alike wherever it stands, and is
left at its end only.
-/

namespace MiniJava.Semantics

/-- What a step leads to, with the state looked at in another way. The end of a run has no state and
stays as it is. -/
def Next.map {σ τ : Type} (f : σ → τ) : Next σ → Next τ
  | .goOn s => .goOn (f s)
  | .finish value => .finish value

section

variable {σ : Type} {step : σ → Act (Next σ)} {s t u : σ} {w v x : World} {n m : Nat}
  {r r' : EStateM.Result Stop World (Option Value)}

/-- Of two states of one run, the later is reached from the earlier, in as many steps as they are
apart. -/
theorem Reaches.later (h₁ : Reaches step n s w t v) (h₂ : Reaches step (n + m) s w u x) :
    Reaches step m t v u x := by
  induction h₁ with
  | zero s w => rwa [Nat.zero_add] at h₂
  | @succ n _ _ _ _ _ _ hFirst _ ih =>
      rw [Nat.add_right_comm] at h₂
      cases h₂ with
      | succ hFirst' hRest' =>
          rw [hFirst] at hFirst'
          obtain ⟨⟨⟩, rfl⟩ := hFirst'
          exact ih hRest'

theorem Ends.unique (h : Ends step s w r) (h' : Ends step s w r') : r = r' := by
  induction h with
  | returned hLast | stopped hLast =>
      cases h' with
      | returned hLast' | stopped hLast' | succ hLast' _ =>
          rw [hLast] at hLast'
          cases hLast' <;> rfl
  | succ hFirst _ ih =>
      cases h' with
      | returned hLast' | stopped hLast' =>
          rw [hFirst] at hLast'
          cases hLast'
      | succ hFirst' hRest' =>
          rw [hFirst] at hFirst'
          obtain ⟨⟨⟩, rfl⟩ := hFirst'
          exact ih hRest'

/-- A run comes to one state only that does not go on. So its end can be looked for in any way. -/
theorem Reaches.last_unique (h₁ : Reaches step n s w t v) (h₂ : Reaches step m s w u x)
    (hLast₁ : ∀ t' v', (step t).run v ≠ .ok (.goOn t') v')
    (hLast₂ : ∀ t' v', (step u).run x ≠ .ok (.goOn t') v') : t = u ∧ v = x := by
  wlog hLe : n ≤ m generalizing n m t u v x
  · obtain ⟨rfl, rfl⟩ := this h₂ h₁ hLast₂ hLast₁ (by omega)
    exact ⟨rfl, rfl⟩
  · obtain ⟨k, rfl⟩ := Nat.exists_eq_add_of_le hLe
    cases h₁.later h₂ with
    | zero _ _ => exact ⟨rfl, rfl⟩
    | succ hFirst _ => exact (hLast₁ _ _ hFirst).elim

end

end MiniJava.Semantics

namespace MiniJava.Semantics.Code

open MiniJava.Code

variable {setting : Setting} {body part rest : List Instr} {s t u : State} {w v x : World} {n m : Nat}

/-- Jumps go to the one place where their label stands. -/
theorem afterLabel?_of_suffix {l : Label} {code : List Instr} (hNodup : (labels code).Nodup)
    (hSuffix : (.label l :: rest) <:+ code) : afterLabel? l code = some (.label l :: rest) := by
  obtain ⟨front, rfl⟩ := hSuffix
  induction front with
  | nil => simp [afterLabel?]
  | cons i front ih =>
      have hOther : i ≠ .label l := by
        intro hSame
        subst hSame
        simp [Instr.label?, labels] at hNodup
      have hRest : (labels (front ++ .label l :: rest)).Nodup := by
        refine List.Nodup.sublist ?_ hNodup
        exact List.Sublist.filterMap _ (List.sublist_cons_self i _)
      rw [List.cons_append, afterLabel?, if_neg hOther]
      exact ih hRest

/-- What is found from a label on is an end of the code, and begins with that label. -/
theorem afterLabel?_spec {l : Label} {code : List Instr} (h : afterLabel? l code = some rest) :
    rest ≠ [] ∧ rest <:+ code := by
  induction code with
  | nil => cases h
  | cons i code ih =>
      rw [afterLabel?] at h
      split at h
      · obtain rfl := Option.some.inj h
        exact ⟨List.cons_ne_nil i code, List.suffix_refl _⟩
      · obtain ⟨hNonempty, hSuffix⟩ := ih h
        exact ⟨hNonempty, hSuffix.trans (List.suffix_cons i code)⟩

theorem jump_goOn {env : Env} {l : Label}
    (h : (jump body env l).run w = .ok (.goOn t) v) : afterLabel? l body = some t.rest := by
  unfold jump at h
  split at h
  · rename_i rest hFound
    obtain ⟨⟨⟩, -⟩ := run_pure_ok.mp h
    exact hFound
  · exact (run_throw_ok h).elim

/-- A step goes on to the next instruction, or to the label to which the instruction may jump. -/
theorem step_goOn {i : Instr} {env : Env}
    (h : (step setting body ⟨i :: rest, env⟩).run w = .ok (.goOn t) v) :
    i.isReturn = false ∧
      (t.rest = rest ∨ ∃ l, i.target? = some l ∧ afterLabel? l body = some t.rest) := by
  cases i with
  | ret value ty =>
      cases value with
      | none =>
          obtain ⟨⟨⟩, -⟩ := run_pure_ok.mp h
      | some o =>
          obtain ⟨_, _, -, hLast⟩ := run_bind_ok.mp h
          obtain ⟨⟨⟩, -⟩ := run_pure_ok.mp hLast
  | branch condition target =>
      obtain ⟨b, _, -, hLast⟩ := run_bind_ok.mp h
      cases b with
      | true => exact ⟨rfl, .inr ⟨target, rfl, jump_goOn hLast⟩⟩
      | false =>
          obtain ⟨⟨⟩, -⟩ := run_pure_ok.mp hLast
          exact ⟨rfl, .inl rfl⟩
  | goto target => exact ⟨rfl, .inr ⟨target, rfl, jump_goOn h⟩⟩
  | label l =>
      obtain ⟨⟨⟩, -⟩ := run_pure_ok.mp h
      exact ⟨rfl, .inl rfl⟩
  | putField object field ty value =>
      obtain ⟨_, _, -, h⟩ := run_bind_ok.mp h
      obtain ⟨_, _, -, h⟩ := run_bind_ok.mp h
      obtain ⟨_, _, -, h⟩ := run_bind_ok.mp h
      obtain ⟨⟨⟩, -⟩ := run_pure_ok.mp h
      exact ⟨rfl, .inl rfl⟩
  | _ =>
      obtain ⟨_, _, -, h⟩ := run_bind_ok.mp h
      obtain ⟨⟨⟩, -⟩ := run_pure_ok.mp h
      exact ⟨rfl, .inl rfl⟩

/-- The state with more code to come behind its own, as for a part that stands in a longer body. -/
def State.before (s : State) (rest : List Instr) : State := ⟨s.rest ++ rest, s.env⟩

/-- The part jumps to its own labels only, and stands in the body, before `rest`. A run comes out of it
at its end only. -/
structure Region (body part rest : List Instr) : Prop where
  resolved : Resolved part
  suffix : (part ++ rest) <:+ body
  nodup : (labels body).Nodup

theorem exists_afterLabel? {l : Label} {code : List Instr} (h : l ∈ labels code) :
    ∃ rest, afterLabel? l code = some (.label l :: rest) := by
  induction code with
  | nil => cases h
  | cons i code ih =>
      rw [afterLabel?]
      split
      · rename_i hHere
        exact ⟨code, by rw [hHere]⟩
      · rename_i hOther
        refine ih ?_
        rw [labels_cons, List.mem_append] at h
        refine h.resolve_left fun hHere => hOther ?_
        cases i <;> simp_all

/-- A label of the part is found in the part. -/
theorem Region.afterLabel?_eq (h : Region body part rest) {l : Label} (hl : l ∈ labels part) :
    afterLabel? l body = (afterLabel? l part).map (· ++ rest) := by
  obtain ⟨tail, hFound⟩ := exists_afterLabel? hl
  obtain ⟨-, front, hPart⟩ := afterLabel?_spec hFound
  have hSuffix : (.label l :: (tail ++ rest)) <:+ body := by
    refine List.IsSuffix.trans ⟨front, ?_⟩ h.suffix
    rw [← hPart, List.append_assoc, List.cons_append]
  rw [hFound, afterLabel?_of_suffix h.nodup hSuffix]
  rfl

/-- A jump to a label of the part goes to the same place of the part, with the same code behind it. -/
theorem Region.jump_eq (h : Region body part rest) {l : Label} (hl : l ∈ labels part) (env : Env) :
    jump body env l = jump part env l >>= fun next => pure (next.map (·.before rest)) := by
  obtain ⟨tail, hFound⟩ := exists_afterLabel? hl
  rw [jump, jump, h.afterLabel?_eq hl, hFound]
  rfl

/-- A step within the part does not depend on what stands around the part, as its jumps go to its own
labels. -/
theorem Region.step_eq (h : Region body part rest) (hNonempty : s.rest ≠ [])
    (hWithin : s.rest <:+ part) :
    step setting body (s.before rest) =
      step setting part s >>= fun next => pure (next.map (·.before rest)) := by
  obtain ⟨code, env⟩ := s
  cases code with
  | nil => exact (hNonempty rfl).elim
  | cons i code =>
      have hTarget : ∀ l, i.target? = some l → l ∈ labels part := fun l hl =>
        h.resolved.closed l (List.mem_filterMap.mpr ⟨i, hWithin.subset List.mem_cons_self, hl⟩)
      rw [State.before, List.cons_append]
      cases i with
      | branch condition target =>
          simp only [step, h.jump_eq (hTarget target rfl), bind_assoc]
          congr 1
          funext b
          cases b <;> rfl
      | goto target => exact h.jump_eq (hTarget target rfl) env
      | ret value ty =>
          cases value with
          | none => rfl
          | some o => simp only [step, bind_assoc, pure_bind]; rfl
      | label l => rfl
      | _ => simp only [step, bind_assoc, pure_bind]; rfl

/-- Code by itself is never left but at its end: after every step what remains is still an end of it. -/
theorem goOn_suffix (hWithin : s.rest <:+ part)
    (h : (step setting part s).run w = .ok (.goOn t) v) : t.rest <:+ part := by
  obtain ⟨code, env⟩ := s
  cases code with
  | nil => cases h
  | cons i code =>
      rcases (step_goOn h).2 with hNext | ⟨l, -, hFound⟩
      · rw [hNext]
        exact (List.suffix_cons i code).trans hWithin
      · exact (afterLabel?_spec hFound).2

theorem reaches_within (hWithin : s.rest <:+ part) (h : Reaches (step setting part) n s w t v) :
    t.rest <:+ part := by
  induction h with
  | zero s w => exact hWithin
  | succ hFirst _ ih => exact ih (goOn_suffix hWithin hFirst)

theorem eq_of_reaches_of_end (hEnd : s.rest = []) (h : Reaches (step setting body) n s w t v) :
    n = 0 ∧ t = s ∧ v = w := by
  obtain ⟨code, env⟩ := s
  obtain rfl := hEnd
  cases h with
  | zero _ _ => exact ⟨rfl, rfl, rfl⟩
  | succ hFirst _ => cases hFirst

/-- What the part does by itself, it does where it stands, with the code behind it still to come. -/
theorem Region.reaches (h : Region body part rest) (hWithin : s.rest <:+ part)
    (hReach : Reaches (step setting part) n s w t v) :
    Reaches (step setting body) n (s.before rest) w (t.before rest) v := by
  induction hReach with
  | zero s w => exact .zero _ w
  | @succ n s t u w v x hFirst _ ih =>
      have hNonempty : s.rest ≠ [] := by
        obtain ⟨code, env⟩ := s
        rintro rfl
        cases hFirst
      refine .succ ?_ (ih (goOn_suffix hWithin hFirst))
      rw [h.step_eq hNonempty hWithin, run_bind_of_ok hFirst]
      rfl

/-- A run that starts within the part is what the part does by itself, until the part is left at its
end. -/
theorem Region.split (h : Region body part rest) (hWithin : s.rest <:+ part)
    (hReach : Reaches (step setting body) n (s.before rest) w u x) :
    ∃ k m t v, n = k + m ∧ Reaches (step setting part) k s w t v ∧
      (m = 0 ∨ t.rest = []) ∧ Reaches (step setting body) m (t.before rest) v u x := by
  induction n generalizing s w with
  | zero => exact ⟨0, 0, s, w, rfl, .zero s w, .inl rfl, hReach⟩
  | succ n ih =>
      by_cases hEnd : s.rest = []
      · exact ⟨0, n + 1, s, w, by omega, .zero s w, .inr hEnd, hReach⟩
      · cases hReach with
        | succ hFirst hRest =>
            rw [h.step_eq hEnd hWithin] at hFirst
            obtain ⟨next, v, hStep, hNext⟩ := run_bind_ok.mp hFirst
            cases next with
            | finish value => cases hNext
            | goOn t =>
                cases hNext
                obtain ⟨k, m, t', v', rfl, hPart, hLeft, hLater⟩ := ih (goOn_suffix hWithin hStep) hRest
                exact ⟨k + 1, m, t', v', by omega, .succ hStep hPart, hLeft, hLater⟩

/-- Nothing comes back to what stands before an end of the code that jumps to its own labels only. -/
theorem Region.reaches_suffix (h : Region body part []) (hWithin : s.rest <:+ part)
    (hReach : Reaches (step setting body) n s w u x) : u.rest <:+ part := by
  have hStart : s.before [] = s := by rw [State.before, List.append_nil]
  obtain ⟨k, m, t, v, -, hPart, hLeft, hLater⟩ := h.split hWithin (hStart ▸ hReach)
  have hThere := reaches_within hWithin hPart
  have hSame : u = t.before [] := by
    rcases hLeft with rfl | hEnd
    · cases hLater
      rfl
    · exact (eq_of_reaches_of_end (by rw [State.before, hEnd]; rfl) hLater).2.1
  rwa [hSame, State.before, List.append_nil]

/-- In one run, what stands before such an end comes before what stands in it. -/
theorem Region.lt_of_reaches (h : Region body part []) {j k : Nat}
    (hBefore : Reaches (step setting body) j s w t v) (hOutside : ¬t.rest <:+ part)
    (hAfter : Reaches (step setting body) k s w u x) (hWithin : u.rest <:+ part) : j < k := by
  by_contra hLe
  obtain ⟨m, rfl⟩ := Nat.exists_eq_add_of_le (Nat.le_of_not_lt hLe)
  exact hOutside (h.reaches_suffix hWithin (hAfter.later hBefore))

/-- After `n` steps, a run of the body comes to the instruction `i`, in the part of the body before
`rest`. -/
def Meets (setting : Setting) (body : List Instr) (env : Env) (w : World) (part rest : List Instr)
    (n : Nat) (i : Instr) : Prop :=
  ∃ later env' v, (i :: later) <:+ part ∧
    Reaches (step setting body) n ⟨body, env⟩ w ⟨i :: (later ++ rest), env'⟩ v

/-- The instructions of a part are met before those of the part after it, since no jump leads back. -/
theorem Meets.lt {env : Env} {first second : List Instr} {i j : Instr}
    (hRegion : Region body (second ++ rest) [])
    (hFirst : Meets setting body env w first (second ++ rest) n i)
    (hSecond : Meets setting body env w second rest m j) : n < m := by
  obtain ⟨later, _, _, -, hBefore⟩ := hFirst
  obtain ⟨later', _, _, ⟨front, rfl⟩, hAfter⟩ := hSecond
  refine hRegion.lt_of_reaches hBefore ?_ hAfter ⟨front, by simp⟩
  intro hInside
  have hLength := hInside.length_le
  simp only [List.length_cons, List.length_append] at hLength
  omega

end MiniJava.Semantics.Code
