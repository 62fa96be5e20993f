import MiniJava.Proofs.Stack.Flow
import Mathlib.Tactic.IntervalCases

/-!
Depths that are assigned to the places of code beforehand. If they agree wherever control goes on
or jumps, the one walk from the first instruction to the last finds them: each instruction at its
own depth, however many jumps lead to a label and from wherever they come.
-/

namespace MiniJava.Stack

/-- Between the label before and the place there is an instruction that never goes on. Control does not
come to such a place from the code before it. -/
def CutOff (code : List Instr) (place : Nat) : Prop :=
  ∃ last < place, (∃ i, code[last]? = some i ∧ i.isUnconditional = true) ∧
    ∀ between i, last < between → between < place → code[between]? = some i → i.isLabel = false

/-- Depths of all places of the code, its end included, that agree with what each instruction needs
and does. An instruction that never goes on still counts for the place behind it, unless there is a
label. -/
structure Assigns (code : List Instr) (depth : Nat → Nat) : Prop where
  start : depth 0 = 0
  next : ∀ place i, code[place]? = some i →
    i.isUnconditional = false ∨ code[place + 1]?.any Instr.isLabel = false →
      (depth (place + 1) : Int) = depth place + i.delta
  jump : ∀ place i target name, code[place]? = some i → i.target? = some name →
    code[target]? = some (.label name) → (depth target : Int) = depth place + i.delta
  enough : ∀ place i, code[place]? = some i → i.pops ≤ depth place
  entered : ∀ place name, code[place]? = some (.label name) → CutOff code place →
    ∃ source < place, ∃ i, code[source]? = some i ∧ i.target? = some name

namespace CutOff

variable {code : List Instr} {place : Nat} {i : Instr}

/-- Behind an instruction that never goes on control does not come from before, until a label is met. -/
theorem here (hInstr : code[place]? = some i) (hStops : i.isUnconditional = true) :
    CutOff code (place + 1) := by
  refine ⟨place, by omega, ⟨i, hInstr, hStops⟩, fun between j hAfter hBefore _ => ?_⟩
  omega

theorem later (h : CutOff code place) (hInstr : code[place]? = some i) (hLabel : i.isLabel = false) :
    CutOff code (place + 1) := by
  obtain ⟨last, hLast, hStops, hBetween⟩ := h
  refine ⟨last, by omega, hStops, fun between j hAfter hBefore hThere => ?_⟩
  rcases Nat.lt_succ_iff_lt_or_eq.mp hBefore with hEarlier | rfl
  · exact hBetween between j hAfter hEarlier hThere
  · obtain rfl := Option.some.inj (hInstr.symm.trans hThere)
    exact hLabel

end CutOff

namespace Walk

/-- The depth with which the walk counts an instruction: at a label, the one with which it goes on
there. -/
def entering (walk : Walk) : Instr → Nat
  | .label name => (walk.atLabel name).depth
  | _ => walk.depth

/-- A depth found after recording was there before, or it is that of the jump. So every recorded depth
was that of some jump. -/
theorem record_eq_some {jumps : Std.HashMap String Nat} {target? : Option String}
    {after found : Nat} {name : String} (hFound : (record jumps target? after)[name]? = some found) :
    jumps[name]? = some found ∨ found = after ∧ target? = some name := by
  cases target? with
  | none => exact .inl hFound
  | some target =>
      rw [record, Std.HashMap.getElem?_insertIfNew] at hFound
      split at hFound
      · rename_i hNew
        rw [← beq_iff_eq.mp hNew.1]
        exact .inr ⟨(Option.some.inj hFound).symm, rfl⟩
      · exact .inl hFound

/-- What the walk knows before a place, in terms of the depths assigned. Its depth is the assigned one
wherever it counts, and what it has recorded of jumps agrees with the assignment. -/
structure Tracks (code : List Instr) (depth : Nat → Nat) (place : Nat) (walk : Walk) : Prop where
  here : walk.reachable = true ∨ code[place]?.any Instr.isLabel = false → walk.depth = depth place
  cut : walk.reachable = false → CutOff code place
  recorded : ∀ (name : String) (found : Nat), walk.jumps[name]? = some found →
    ∃ source i, code[source]? = some i ∧ i.target? = some name ∧
      (found : Int) = depth source + i.delta
  met : ∀ source < place, ∀ i name, code[source]? = some i → i.target? = some name →
    name ∈ walk.jumps
  depth_le : walk.depth ≤ walk.maxDepth
  jumps_le : ∀ (name : String) (found : Nat), walk.jumps[name]? = some found → found ≤ walk.maxDepth
  earlier_le : ∀ earlier < place, depth earlier ≤ walk.maxDepth
  attained : ∃ earlier ≤ place, walk.maxDepth = depth earlier

variable {code : List Instr} {depth : Nat → Nat} {place : Nat} {walk : Walk} {i : Instr}

/-- At the start the walk knows the depth assigned to the first place, which is zero. No jump has been
met yet. -/
theorem tracks_start (hAssigns : Assigns code depth) : Tracks code depth 0 .start where
  here := fun _ => hAssigns.start.symm
  cut := nofun
  recorded := by simp [start]
  met := nofun
  depth_le := Nat.le_refl _
  jumps_le := by simp [start]
  earlier_le := nofun
  attained := ⟨0, Nat.le_refl _, hAssigns.start.symm⟩

namespace Tracks

/-- An instruction that is no label finds its own depth. -/
theorem depth_eq (h : Tracks code depth place walk) (hInstr : code[place]? = some i)
    (hLabel : i.isLabel = false) : walk.depth = depth place :=
  h.here (.inr (by rw [hInstr]; exact hLabel))

/-- A label is left with its own depth: that of the walk, or, behind an instruction that never goes
on, that of the first jump to it. -/
theorem atLabel_eq (h : Tracks code depth place walk) (hAssigns : Assigns code depth) {name : String}
    (hInstr : code[place]? = some (.label name)) :
    (walk.atLabel name).depth = depth place ∧ depth place ≤ walk.maxDepth := by
  unfold Walk.atLabel
  dsimp only
  cases hReachable : walk.reachable with
  | true =>
      have hHere := h.here (.inl hReachable)
      have hLe := h.depth_le
      exact ⟨hHere, by omega⟩
  | false =>
      obtain ⟨source, hEarlier, i, hSource, hTarget⟩ :=
        hAssigns.entered place name hInstr (h.cut hReachable)
      have hMet := h.met source hEarlier i name hSource hTarget
      obtain ⟨found, hFound⟩ := Option.isSome_iff_exists.mp
        (Std.HashMap.mem_iff_isSome_getElem?.mp hMet)
      obtain ⟨first, j, hFirst, hFirstTarget, hDepth⟩ := h.recorded name found hFound
      have hJump := hAssigns.jump first j place name hFirst hFirstTarget hInstr
      have hLe := h.jumps_le name found hFound
      have hSame : found = depth place := by omega
      rw [Std.HashMap.getD_eq_getD_getElem?, hFound]
      exact ⟨hSame, by omega⟩

/-- Over a label the walk takes up the depth assigned there: its own where control comes from before, and
otherwise that of a jump met. -/
theorem label (h : Tracks code depth place walk) (hAssigns : Assigns code depth) {name : String}
    (hInstr : code[place]? = some (.label name)) :
    Tracks code depth (place + 1) (walk.atLabel name) := by
  obtain ⟨hDepth, hLe⟩ := h.atLabel_eq hAssigns hInstr
  have hNext := hAssigns.next place _ hInstr (.inl rfl)
  have hDelta : (Instr.label name).delta = 0 := rfl
  have hSame : depth (place + 1) = depth place := by omega
  refine ⟨fun _ => hDepth.trans hSame.symm, nofun, h.recorded, ?_, ?_, h.jumps_le, ?_, ?_⟩
  · refine Nat.forall_lt_succ_right.mpr ⟨h.met, fun j target hThere hTarget => ?_⟩
    obtain rfl := Option.some.inj (hInstr.symm.trans hThere)
    cases hTarget
  · rw [hDepth]
    exact hLe
  · exact Nat.forall_lt_succ_right.mpr ⟨h.earlier_le, hLe⟩
  · obtain ⟨earlier, hEarlier, hAttained⟩ := h.attained
    exact ⟨earlier, by omega, hAttained⟩

/-- Over any other instruction the walk follows the depths assigned, also where control does not go
on. -/
theorem after (h : Tracks code depth place walk) (hAssigns : Assigns code depth)
    (hInstr : code[place]? = some i) (hLabel : i.isLabel = false) :
    Tracks code depth (place + 1) (walk.after i) := by
  have hDepth := h.depth_eq hInstr hLabel
  have hEnough := hAssigns.enough place i hInstr
  have hBound := h.depth_le
  have hDelta : i.delta = i.pushes - i.pops := rfl
  have hMax : (walk.after i).maxDepth = max walk.maxDepth (walk.after i).depth := rfl
  have hAfter : ((walk.after i).depth : Int) = depth place + i.delta := by
    have : (walk.after i).depth = walk.depth - i.pops + i.pushes := rfl
    omega
  refine ⟨?_, ?_, ?_, ?_, by omega, ?_, ?_, ?_⟩
  · intro hNext
    have hThere := hAssigns.next place i hInstr <| hNext.imp_left fun hReachable => by
      simpa using (Bool.and_eq_true_iff.mp hReachable).2
    omega
  · intro hUnreachable
    rcases Bool.and_eq_false_iff.mp hUnreachable with hBefore | hStops
    · exact (h.cut hBefore).later hInstr hLabel
    · exact .here hInstr (by simpa using hStops)
  · intro name found hFound
    rcases record_eq_some hFound with hOld | ⟨rfl, hTarget⟩
    · exact h.recorded name found hOld
    · exact ⟨place, i, hInstr, hTarget, hAfter⟩
  · refine Nat.forall_lt_succ_right.mpr ⟨?_, ?_⟩
    · intro source hEarlier j name hThere hTarget
      exact mem_record.mpr (.inr (h.met source hEarlier j name hThere hTarget))
    · intro j name hThere hTarget
      obtain rfl := Option.some.inj (hInstr.symm.trans hThere)
      exact mem_record.mpr (.inl (Option.mem_toList.mpr hTarget))
  · intro name found hFound
    rcases record_eq_some hFound with hOld | ⟨rfl, _⟩
    · have hLe := h.jumps_le name found hOld
      omega
    · omega
  · refine Nat.forall_lt_succ_right.mpr ⟨fun earlier hEarlier => ?_, by omega⟩
    have hLe := h.earlier_le earlier hEarlier
    omega
  · obtain ⟨earlier, hEarlier, hAttained⟩ := h.attained
    by_cases hGrows : (walk.after i).depth ≤ walk.maxDepth
    · exact ⟨earlier, by omega, by omega⟩
    · -- An instruction that never goes on pushes nothing, so the depth behind it is no new one.
      have hFalls : i.isUnconditional = false := by
        by_contra hStops
        have hPushes : i.pushes = 0 := by cases i <;> first | rfl | exact (hStops rfl).elim
        omega
      have hThere := hAssigns.next place i hInstr (.inl hFalls)
      exact ⟨place + 1, Nat.le_refl _, by omega⟩

/-- One step of the walk, over a label or any other instruction. It succeeds, because the assigned depth
has room for what is taken. -/
theorem step (method : String) (h : Tracks code depth place walk) (hAssigns : Assigns code depth)
    (hInstr : code[place]? = some i) :
    walk.entering i = depth place ∧
      ∃ walk', walk.step method i = .ok walk' ∧ Tracks code depth (place + 1) walk' := by
  cases hLabel : i.isLabel with
  | true =>
      cases i <;> cases hLabel
      exact ⟨(h.atLabel_eq hAssigns hInstr).1, _, rfl, h.label hAssigns hInstr⟩
  | false =>
      have hDepth := h.depth_eq hInstr hLabel
      have hEnough := hAssigns.enough place i hInstr
      have hEntering : walk.entering i = walk.depth := by cases i <;> first | rfl | cases hLabel
      refine ⟨hEntering.trans hDepth, walk.after i, ?_, h.after hAssigns hInstr hLabel⟩
      rw [step_of_not_label hLabel, if_neg (by omega)]

end Tracks

/-- The walk comes to every place of the code, its end included, by induction on the place. -/
theorem tracks_run (method : String) (hAssigns : Assigns code depth) (hPlace : place ≤ code.length) :
    ∃ walk, (code.take place).foldlM (step method) .start = .ok walk ∧
      Tracks code depth place walk := by
  induction place with
  | zero => exact ⟨.start, rfl, tracks_start hAssigns⟩
  | succ place ih =>
      obtain ⟨walk, hRun, hTracks⟩ := ih (by omega)
      have hInstr : code[place]? = some code[place] := List.getElem?_eq_getElem hPlace
      obtain ⟨-, walk', hStep, hTracks'⟩ := hTracks.step method hAssigns hInstr
      refine ⟨walk', ?_, hTracks'⟩
      rw [List.take_add_one, hInstr, List.foldlM_append, hRun]
      simp only [Option.toList_some, List.foldlM_cons, List.foldlM_nil, bind, Except.bind, hStep]
      rfl

end Walk

/-- If depths that a class file can state are assigned to all places of the code, and they agree
wherever control goes on or jumps, then the walk succeeds, counts every instruction with the depth
of its place, and finds the greatest of the depths and that of the end. -/
theorem usage_of_assigns (method : String) {code : List Instr} {depth : Nat → Nat}
    (hAssigns : Assigns code depth) (hFits : ∀ place ≤ code.length, depth place < UInt16.size) :
    (∀ place i, code[place]? = some i →
      ∃ walk, (code.take place).foldlM (Walk.step method) .start = .ok walk ∧
        walk.entering i = depth place) ∧
      ∃ found, usage method code = .ok found ∧
        IsGreatest (depth '' Set.Iic code.length) found.maxDepth.toNat ∧
        found.finalDepth.toNat = depth code.length := by
  constructor
  · intro place i hInstr
    obtain ⟨hPlace, -⟩ := List.getElem?_eq_some_iff.mp hInstr
    obtain ⟨walk, hRun, hTracks⟩ := Walk.tracks_run method hAssigns (Nat.le_of_lt hPlace)
    exact ⟨walk, hRun, (hTracks.step method hAssigns hInstr).1⟩
  · obtain ⟨walk, hRun, hTracks⟩ := Walk.tracks_run method hAssigns (Nat.le_refl code.length)
    rw [List.take_length] at hRun
    have hEnd : walk.depth = depth code.length := hTracks.here (.inr (by simp))
    obtain ⟨deepest, hDeepest, hMax⟩ := hTracks.attained
    have hMaxFits : walk.maxDepth < UInt16.size := hMax ▸ hFits deepest hDeepest
    have hEndFits : walk.depth < UInt16.size := hEnd ▸ hFits _ (Nat.le_refl _)
    refine ⟨⟨.ofNat walk.maxDepth, .ofNat walk.depth⟩, ?_, ⟨?_, ?_⟩, ?_⟩
    · simp only [usage, hRun, bind, Except.bind, depthLimit, if_pos hMaxFits, if_pos hEndFits]
      rfl
    · rw [UInt16.toNat_ofNat_of_lt' hMaxFits]
      exact ⟨deepest, hDeepest, hMax.symm⟩
    · rintro _ ⟨place, hPlace, rfl⟩
      rw [UInt16.toNat_ofNat_of_lt' hMaxFits]
      rcases Nat.lt_or_eq_of_le hPlace with hEarlier | rfl
      · exact hTracks.earlier_le place hEarlier
      · exact hEnd ▸ hTracks.depth_le
    · rw [UInt16.toNat_ofNat_of_lt' hEndFits]
      exact hEnd

namespace Countdown

/-- Whether the first slot is less than the second is left as 0 or 1, and as long as it is 1, all is
done again. -/
def code : List Instr :=
  [.label "again", .loadShort .int 1, .loadShort .int 2, .ifInts .lt "true", .iconst 0, .goto "end",
    .label "true", .iconst 1, .label "end", .ifZero .ne "again", .ret]

/-- The depths of the twelve places of this code. The two labels behind instructions that never go on
have the depths of the jumps to them. -/
def depths : List Nat := [0, 0, 1, 2, 0, 1, 0, 0, 1, 1, 0, 0]

end Countdown

/-- The depths suit the code, and the walk finds their greatest one. -/
theorem countdown_usage :
    Assigns Countdown.code (Countdown.depths.getD · 0) ∧
      (∀ place ≤ Countdown.code.length, Countdown.depths.getD place 0 < UInt16.size) ∧
      ∃ found, usage "countdown" Countdown.code = .ok found ∧
        IsGreatest ((Countdown.depths.getD · 0) '' Set.Iic Countdown.code.length)
          found.maxDepth.toNat ∧
        found.finalDepth.toNat = 0 := by
  have hAssigns : Assigns Countdown.code (Countdown.depths.getD · 0) := by
    refine ⟨rfl, ?_, ?_, ?_, ?_⟩
    · intro place i hInstr hNext
      have hPlace : place < 11 := (List.getElem?_eq_some_iff.mp hInstr).1
      interval_cases place <;> cases hInstr <;> first | rfl | exact absurd hNext (by decide)
    · intro place i target name hInstr hTarget hLabel
      have hPlace : place < 11 := (List.getElem?_eq_some_iff.mp hInstr).1
      have hThere : target < 11 := (List.getElem?_eq_some_iff.mp hLabel).1
      interval_cases place <;> cases hInstr <;> cases hTarget <;>
        interval_cases target <;> first | rfl | exact absurd hLabel (by decide)
    · intro place i hInstr
      have hPlace : place < 11 := (List.getElem?_eq_some_iff.mp hInstr).1
      interval_cases place <;> cases hInstr <;> decide
    · intro place name hLabel hCut
      have hPlace : place < 11 := (List.getElem?_eq_some_iff.mp hLabel).1
      interval_cases place <;> cases hLabel
      · obtain ⟨_, hBefore, -⟩ := hCut
        exact absurd hBefore (Nat.not_lt_zero _)
      · exact ⟨3, by decide, _, rfl, rfl⟩
      · exact ⟨5, by decide, _, rfl, rfl⟩
  have hFits : ∀ place ≤ Countdown.code.length, Countdown.depths.getD place 0 < UInt16.size := by
    decide
  exact ⟨hAssigns, hFits, (usage_of_assigns "countdown" hAssigns hFits).2⟩

end MiniJava.Stack
