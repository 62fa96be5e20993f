import MiniJava.Proofs.Stack.Labels
import MiniJava.Stack.Depth
import Mathlib.Order.Bounds.Basic

/-! Depths of the operand stack along all ways through code. Code is read once from its start, with
a depth assigned to each label beforehand; if every instruction fits what was read before it, then
the depth at a place does not depend on the way to it, and the walk that finds the greatest depth
agrees with the reading. -/

namespace MiniJava.Stack

/-- Control that starts with `first` values on the stack reaches a place of the code with a depth: at
the start, from the instruction before, or by a jump to a label. Depths are integers, so that a way on
which operands are missing still has one. -/
inductive ArrivesFrom (code : List Instr) (first : Nat) : Nat → Int → Prop
  | start : ArrivesFrom code first 0 first
  | next {place : Nat} {depth : Int} {i : Instr} (hArrives : ArrivesFrom code first place depth)
      (hInstr : code[place]? = some i) (hFalls : i.isUnconditional = false) :
      ArrivesFrom code first (place + 1) (depth + i.delta)
  | jump {place target : Nat} {depth : Int} {i : Instr} {name : String}
      (hArrives : ArrivesFrom code first place depth) (hInstr : code[place]? = some i)
      (hTarget : i.target? = some name) (hLabel : code[target]? = some (.label name)) :
      ArrivesFrom code first target (depth + i.delta)

/-- Control reaches a place of the code of a method, which is entered with an empty stack. -/
def Arrives (code : List Instr) : Nat → Int → Prop := ArrivesFrom code 0

theorem ArrivesFrom.place_le {code : List Instr} {first place : Nat} {depth : Int}
    (h : ArrivesFrom code first place depth) : place ≤ code.length := by
  cases h with
  | start => exact Nat.zero_le _
  | next _ hInstr _ => exact (List.getElem?_eq_some_iff.mp hInstr).1
  | jump _ _ _ hLabel => exact Nat.le_of_lt (List.getElem?_eq_some_iff.mp hLabel).1

/-- What is known of the stack between two instructions. Unlike the walk it is told the depth at labels,
so that jumps forward need not be met first. -/
structure Flow where
  depth : Nat
  /-- Whether control can come from the instruction before, if control comes to that one. -/
  falls : Bool
  /-- The labels to which there was a jump. -/
  met : List String

namespace Flow

/-- At the start of a method the stack is empty, and no label has been jumped to. Control comes to this
place. -/
def start : Flow := ⟨0, true, []⟩

variable (atLabel : String → Nat) (f : Flow)

/-- What is known after one more instruction. A label begins anew with the depth that it is told. -/
def next : Instr → Flow
  | .label name => ⟨atLabel name, true, f.met⟩
  | i => ⟨f.depth - i.pops + i.pushes, !i.isUnconditional, i.target?.toList ++ f.met⟩

/-- The depth before the instruction that follows, if one does. At a label it is that of the label, at
any other place the one that goes on. -/
def before : Option Instr → Nat
  | some (.label name) => atLabel name
  | _ => f.depth

/-- The operands of the instruction are there, and the depths at labels are as assigned. A label at
which the stack is not empty must be one that was met. -/
def Fits : Instr → Prop
  | .label name =>
      (f.falls = true → f.depth = atLabel name) ∧ (atLabel name = 0 ∨ name ∈ f.met)
  | i => i.pops ≤ f.depth ∧
      ∀ name, i.target? = some name → atLabel name = f.depth - i.pops + i.pushes

variable {atLabel f}

/-- An instruction other than a label changes the depth by what it pops and pushes and adds its target to
the labels met. -/
theorem next_of_not_label {i : Instr} (hLabel : i.isLabel = false) :
    f.next atLabel i =
      ⟨f.depth - i.pops + i.pushes, !i.isUnconditional, i.target?.toList ++ f.met⟩ := by
  cases i <;> first | rfl | cases hLabel

theorem next_met (i : Instr) : (f.next atLabel i).met = i.target?.toList ++ f.met := by
  cases i <;> rfl

/-- Only labels have depths of their own; elsewhere the depth is that of the reading. -/
theorem before_of_not_label {i : Instr} (hLabel : i.isLabel = false) :
    f.before atLabel (some i) = f.depth := by
  cases i <;> first | rfl | cases hLabel

/-- What an instruction other than a label needs: its operands, and the right depth at its target. -/
theorem fits_of_not_label {i : Instr} (hLabel : i.isLabel = false) :
    f.Fits atLabel i ↔ i.pops ≤ f.depth ∧
      ∀ name, i.target? = some name → atLabel name = f.depth - i.pops + i.pushes := by
  cases i <;> first | rfl | cases hLabel

/-- Where control comes from before, a label that fits has the depth with which control comes. -/
theorem before_of_falls {i? : Option Instr} (hFalls : f.falls = true)
    (hFits : ∀ i, i? = some i → f.Fits atLabel i) : f.before atLabel i? = f.depth := by
  cases i? with
  | none => rfl
  | some i =>
      cases i with
      | label name => exact ((hFits _ rfl).1 hFalls).symm
      | _ => rfl

/-- At a label the depth may differ from that of the reading before it; but labels pop nothing. -/
theorem pops_le_before {i : Instr} (hFits : f.Fits atLabel i) :
    i.pops ≤ f.before atLabel (some i) := by
  cases i with
  | label name => exact Nat.zero_le _
  | _ => exact hFits.1

end Flow

/-- Every instruction of the code fits what was read before it. Such code passes the walk, and the depths
that the walk finds are those known here. -/
inductive Flows (atLabel : String → Nat) : Flow → List Instr → Flow → Prop
  | nil (f : Flow) : Flows atLabel f [] f
  | cons {f f' : Flow} {i : Instr} {rest : List Instr} (hFits : f.Fits atLabel i)
      (hRest : Flows atLabel (f.next atLabel i) rest f') : Flows atLabel f (i :: rest) f'

namespace Flows

variable {atLabel : String → Nat} {f f' f'' : Flow} {code rest : List Instr}

theorem append (hCode : Flows atLabel f code f') (hRest : Flows atLabel f' rest f'') :
    Flows atLabel f (code ++ rest) f'' := by
  induction hCode with
  | nil f => exact hRest
  | cons hFits _ ih => exact .cons hFits (ih hRest)

theorem split (h : Flows atLabel f (code ++ rest) f'') :
    ∃ f', Flows atLabel f code f' ∧ Flows atLabel f' rest f'' := by
  induction code generalizing f with
  | nil => exact ⟨f, .nil f, h⟩
  | cons i code ih =>
      cases h with
      | cons hFits hTail =>
          obtain ⟨f', hCode, hRest⟩ := ih hTail
          exact ⟨f', .cons hFits hCode, hRest⟩

theorem eq_foldl (h : Flows atLabel f code f') : f' = code.foldl (Flow.next atLabel) f := by
  induction h with
  | nil f => rfl
  | cons _ _ ih => exact ih

/-- Labels that have been jumped to are targets of the code or were jumped to before it. -/
theorem met_subset (h : Flows atLabel f code f') {name : String} (hName : name ∈ f'.met) :
    name ∈ targets code ∨ name ∈ f.met := by
  induction h with
  | nil f => exact .inr hName
  | cons _ _ ih =>
      rw [targets_cons, List.mem_append]
      rcases ih hName with hRest | hNext
      · exact .inl (.inr hRest)
      · rw [Flow.next_met, List.mem_append] at hNext
        exact hNext.imp_left .inl

end Flows

namespace Flow

/-- What is known before the instruction at a place, by reading the code in front of it from its
start. -/
def upTo (atLabel : String → Nat) (f : Flow) (code : List Instr) (place : Nat) : Flow :=
  (code.take place).foldl (next atLabel) f

/-- The depth at a place of the code. It is a function of the place, so that two ways to one place come
with one depth. -/
def depthAt (atLabel : String → Nat) (f : Flow) (code : List Instr) (place : Nat) : Nat :=
  (upTo atLabel f code place).before atLabel code[place]?

variable {atLabel : String → Nat} {f f' : Flow} {code : List Instr} {place : Nat} {i : Instr}

theorem upTo_succ (hInstr : code[place]? = some i) :
    upTo atLabel f code (place + 1) = (upTo atLabel f code place).next atLabel i := by
  rw [upTo, List.take_add_one, hInstr, List.foldl_append]
  rfl

/-- Reading code as a whole has every instruction fit what is known before it, also where control does
not come. -/
theorem fits_upTo (h : Flows atLabel f code f') (hInstr : code[place]? = some i) :
    (upTo atLabel f code place).Fits atLabel i := by
  induction h generalizing place with
  | nil f => cases hInstr
  | cons hFits hRest ih =>
      cases place with
      | zero =>
          cases hInstr
          exact hFits
      | succ place => exact ih hInstr

/-- Where control comes from before, the depth at a place is that of the reading. -/
theorem depthAt_of_falls (h : Flows atLabel f code f')
    (hFalls : (upTo atLabel f code place).falls = true) :
    depthAt atLabel f code place = (upTo atLabel f code place).depth :=
  before_of_falls hFalls fun _ hInstr => fits_upTo h hInstr

/-- At the end of code that goes on the depth is that before the next instruction, which may be a
label. -/
theorem depthAt_length {rest : List Instr} (h : Flows atLabel f code f') :
    depthAt atLabel f (code ++ rest) code.length = f'.before atLabel rest.head? := by
  rw [depthAt, upTo, List.take_left, ← h.eq_foldl, List.getElem?_append_right (Nat.le_refl _),
    Nat.sub_self, List.head?_eq_getElem?]

theorem pops_le_depthAt (h : Flows atLabel f code f') (hInstr : code[place]? = some i) :
    i.pops ≤ depthAt atLabel f code place := by
  rw [depthAt, hInstr]
  exact pops_le_before (fits_upTo h hInstr)

/-- The depth after an instruction, from the depth before it. It is that before changed by what the
instruction takes and puts back. -/
theorem next_depth (hFits : f.Fits atLabel i) :
    ((f.next atLabel i).depth : Int) = f.before atLabel (some i) + i.delta := by
  cases i with
  | label name => simp [next, before, Instr.delta, Instr.pops, Instr.pushes]
  | _ =>
      have hPops := hFits.1
      simp only [next, before, Instr.delta]
      omega

/-- A jump arrives with the depth of its label, so that all jumps to a label agree. -/
theorem jump_depth {name : String} (hFits : f.Fits atLabel i) (hTarget : i.target? = some name) :
    (atLabel name : Int) = f.before atLabel (some i) + i.delta := by
  have hNotLabel : i.isLabel = false := by cases i <;> first | rfl | cases hTarget
  have hTargetDepth := ((fits_of_not_label hNotLabel).mp hFits).2 name hTarget
  have hAfter := next_depth hFits
  rwa [next_of_not_label hNotLabel, ← hTargetDepth] at hAfter

theorem next_falls (hFalls : i.isUnconditional = false) : (f.next atLabel i).falls = true := by
  cases i <;> first | rfl | cases hFalls

end Flow

/-- All ways to a place arrive with the depth of the place, by induction on the way. -/
theorem ArrivesFrom.eq_depthAt {atLabel : String → Nat} {f f' : Flow} {code : List Instr}
    {place : Nat} {depth : Int} (hFlows : Flows atLabel f code f') (hStart : f.falls = true)
    (h : ArrivesFrom code f.depth place depth) :
    depth = Flow.depthAt atLabel f code place := by
  induction h with
  | start =>
      have hFirst : Flow.depthAt atLabel f code 0 = (Flow.upTo atLabel f code 0).depth :=
        Flow.depthAt_of_falls hFlows hStart
      rw [hFirst]
      rfl
  | @next place depth i _ hInstr hFalls ih =>
      have hNext : Flow.upTo atLabel f code (place + 1) = _ := Flow.upTo_succ hInstr
      rw [Flow.depthAt_of_falls hFlows (by rw [hNext]; exact Flow.next_falls hFalls), hNext,
        Flow.next_depth (Flow.fits_upTo hFlows hInstr), ih, Flow.depthAt, hInstr]
  | @jump place target depth i name _ hInstr hTarget hLabel ih =>
      have hJump := Flow.jump_depth (Flow.fits_upTo hFlows hInstr) hTarget
      rw [ih, Flow.depthAt, hInstr, ← hJump, Flow.depthAt, hLabel]
      rfl

/-- The walk knows what the reading knows. Its depths are those of the reading, and it has met every
label to which the reading has met a jump. -/
structure Walk.Follows (atLabel : String → Nat) (walk : Walk) (f : Flow) : Prop where
  depth : walk.depth = f.depth
  reachable : walk.reachable = true → f.falls = true
  jumps : ∀ name depth, walk.jumps[name]? = some depth → depth = atLabel name
  met : ∀ name ∈ f.met, name ∈ walk.jumps
  depth_le : f.depth ≤ walk.maxDepth
  met_le : ∀ name ∈ f.met, atLabel name ≤ walk.maxDepth

namespace Walk

variable {atLabel : String → Nat} {walk : Walk} {f f' : Flow} {code : List Instr} {i : Instr}
  {method : String}

theorem follows_from (first : Nat) :
    Follows atLabel ⟨first, first, true, ∅⟩ ⟨first, true, []⟩ where
  depth := rfl
  reachable := id
  jumps := by simp
  met := nofun
  depth_le := Nat.le_refl _
  met_le := nofun

theorem follows_start : Follows atLabel .start .start := follows_from 0

/-- A label has the depth with which the walk goes on there. -/
theorem Follows.label {name : String} (h : Follows atLabel walk f)
    (hFits : f.Fits atLabel (.label name)) : (walk.atLabel name).depth = atLabel name := by
  unfold Walk.atLabel
  dsimp only
  split
  · rename_i hReachable
    rw [h.depth]
    exact hFits.1 (h.reachable hReachable)
  · cases hJump : walk.jumps[name]? with
    | some depth => rw [Std.HashMap.getD_eq_getD_getElem?, hJump]; exact h.jumps name depth hJump
    | none =>
        rw [Std.HashMap.getD_eq_getD_getElem?, hJump]
        refine (hFits.2.resolve_right fun hMet => ?_).symm
        have hMem := h.met name hMet
        rw [Std.HashMap.mem_iff_isSome_getElem?, hJump] at hMem
        cases hMem

/-- A step of the walk over an instruction other than a label: it fails if operands are missing. -/
theorem step_of_not_label (hLabel : i.isLabel = false) :
    walk.step method i =
      if walk.depth < i.pops then .error (.stackUnderflow method i.text) else .ok (walk.after i) := by
  cases i <;> first | rfl | cases hLabel

theorem record_eq {jumps : Std.HashMap String Nat} {target? : Option String} {depth : Nat}
    (hJumps : ∀ name depth, jumps[name]? = some depth → depth = atLabel name)
    (hTarget : ∀ name, target? = some name → atLabel name = depth) :
    ∀ name found, (record jumps target? depth)[name]? = some found → found = atLabel name := by
  intro name found hFound
  cases target? with
  | none => exact hJumps name found hFound
  | some target =>
      rw [record, Std.HashMap.getElem?_insertIfNew] at hFound
      split at hFound
      · rename_i hNew
        rw [← beq_iff_eq.mp hNew.1, hTarget target rfl]
        exact (Option.some.inj hFound).symm
      · exact hJumps name found hFound

theorem mem_record {jumps : Std.HashMap String Nat} {target? : Option String} {depth : Nat}
    {name : String} : name ∈ record jumps target? depth ↔ name ∈ target?.toList ∨ name ∈ jumps := by
  cases target? with
  | none => simp [record]
  | some target =>
      rw [record, Std.HashMap.mem_insertIfNew, beq_iff_eq, Option.toList_some, List.mem_singleton,
        eq_comm]

/-- One step: the walk does not fail and stays with the reading, and the greatest depth met grows at most
to the depth behind the instruction. -/
theorem Follows.step (method : String) (h : Follows atLabel walk f) (hFits : f.Fits atLabel i) :
    ∃ walk', walk.step method i = .ok walk' ∧ Follows atLabel walk' (f.next atLabel i) ∧
      walk.maxDepth ≤ walk'.maxDepth ∧
      (walk'.maxDepth ≤ walk.maxDepth ∨
        i.isLabel = false ∧ walk'.maxDepth ≤ (f.next atLabel i).depth) := by
  cases hLabel : i.isLabel with
  | true =>
      cases i <;> cases hLabel
      rename_i name
      refine ⟨walk.atLabel name, rfl, ⟨h.label hFits, fun _ => rfl, h.jumps, h.met, ?_, h.met_le⟩,
        Nat.le_refl _, .inl (Nat.le_refl _)⟩
      change atLabel name ≤ walk.maxDepth
      rcases hFits.2 with hZero | hMet
      · omega
      · exact h.met_le name hMet
  | false =>
      obtain ⟨hPops, hTarget⟩ := (Flow.fits_of_not_label hLabel).mp hFits
      have hDepth := h.depth
      have hEnough : ¬walk.depth < i.pops := by omega
      refine ⟨walk.after i, by rw [step_of_not_label hLabel, if_neg hEnough], ?_,
        Nat.le_max_left _ _, ?_⟩
      · rw [Flow.next_of_not_label hLabel]
        constructor
        · exact congrArg (fun depth => depth - i.pops + i.pushes) hDepth
        · intro hReachable
          exact (Bool.and_eq_true_iff.mp hReachable).2
        · refine record_eq h.jumps fun name hName => ?_
          rw [hTarget name hName, hDepth]
        · intro name hName
          exact mem_record.mpr ((List.mem_append.mp hName).imp_right (h.met name))
        · rw [← hDepth]
          exact Nat.le_max_right _ _
        · intro name hName
          rcases List.mem_append.mp hName with hNew | hOld
          · rw [hTarget name (Option.mem_toList.mp hNew), ← hDepth]
            exact Nat.le_max_right _ _
          · exact Nat.le_trans (h.met_le name hOld) (Nat.le_max_left _ _)
      · rw [Flow.next_of_not_label hLabel, ← hDepth]
        rcases Nat.le_total walk.maxDepth (walk.depth - i.pops + i.pushes) with hLe | hLe
        · exact .inr ⟨rfl, Nat.max_le.mpr ⟨hLe, Nat.le_refl _⟩⟩
        · exact .inl (Nat.max_le.mpr ⟨Nat.le_refl _, hLe⟩)

/-- A place has no greater depth than the walk has met there. -/
theorem Follows.before_le (h : Follows atLabel walk f)
    (hFits : ∀ i, code.head? = some i → f.Fits atLabel i) :
    f.before atLabel code.head? ≤ walk.maxDepth := by
  cases hHead : code.head? with
  | none => exact h.depth_le
  | some i =>
      have hFitsHead := hFits i hHead
      cases hLabel : i.isLabel with
      | false => rw [Flow.before_of_not_label hLabel]; exact h.depth_le
      | true =>
          cases i <;> cases hLabel
          rename_i name
          change atLabel name ≤ walk.maxDepth
          rcases hFitsHead.2 with hZero | hMet
          · omega
          · exact h.met_le name hMet

/-- Over code that fits the walk does not fail. The greatest depth it has met at the end bounds the depth
of each place and is one of them, or was met before. -/
theorem Follows.run (method : String) (h : Follows atLabel walk f)
    (hFlows : Flows atLabel f code f') :
    ∃ walk', code.foldlM (Walk.step method) walk = .ok walk' ∧ Follows atLabel walk' f' ∧
      walk.maxDepth ≤ walk'.maxDepth ∧
      (∀ place ≤ code.length, Flow.depthAt atLabel f code place ≤ walk'.maxDepth) ∧
      (walk'.maxDepth ≤ walk.maxDepth ∨
        ∃ place ≤ code.length, walk'.maxDepth ≤ Flow.depthAt atLabel f code place) := by
  induction hFlows generalizing walk with
  | nil f =>
      refine ⟨walk, rfl, h, Nat.le_refl _, ?_, .inl (Nat.le_refl _)⟩
      intro place hPlace
      obtain rfl : place = 0 := Nat.le_zero.mp hPlace
      exact h.depth_le
  | @cons f f' i rest hFits hRest ih =>
      obtain ⟨walk₁, hStep, hFollows, hMono, hNew⟩ := h.step method hFits
      obtain ⟨walk', hRun, hFollows', hMono', hUpper, hLower⟩ := ih hFollows
      refine ⟨walk', ?_, hFollows', Nat.le_trans hMono hMono', ?_, ?_⟩
      · rw [List.foldlM_cons, hStep]
        exact hRun
      · intro place hPlace
        cases place with
        | zero =>
            have hBefore : f.before atLabel (i :: rest).head? ≤ walk.maxDepth :=
              h.before_le fun _ hHead => by cases hHead; exact hFits
            exact Nat.le_trans hBefore (Nat.le_trans hMono hMono')
        | succ place => exact hUpper place (Nat.le_of_succ_le_succ hPlace)
      · rcases hLower with hLe | ⟨place, hPlace, hLe⟩
        · rcases hNew with hOld | ⟨hLabel, hDepth⟩
          · exact .inl (Nat.le_trans hLe hOld)
          · -- The new greatest depth is that of the next place, or, after a jump, of this one.
            right
            cases hJump : i.isUnconditional with
            | false =>
                refine ⟨1, by simp, ?_⟩
                have hNext : Flow.depthAt atLabel (f.next atLabel i) rest 0 =
                    (f.next atLabel i).depth :=
                  Flow.depthAt_of_falls hRest (Flow.next_falls hJump)
                change _ ≤ Flow.depthAt atLabel (f.next atLabel i) rest 0
                omega
            | true =>
                refine ⟨0, Nat.zero_le _, ?_⟩
                have hHere : Flow.depthAt atLabel f (i :: rest) 0 = f.depth :=
                  Flow.before_of_not_label hLabel
                have hPushes : i.pushes = 0 := by cases i <;> first | rfl | cases hJump
                rw [Flow.next_of_not_label hLabel] at hDepth
                simp only at hDepth
                omega
        · exact .inr ⟨place + 1, Nat.succ_le_succ hPlace, hLe⟩

end Walk

/-- The walk succeeds, and the greatest depth that it finds is the greatest of all places. Places to
which control does not come count too. -/
theorem Flows.walk {atLabel : String → Nat} {f' : Flow} {code : List Instr} (method : String)
    (hFlows : Flows atLabel .start code f') :
    ∃ walk, code.foldlM (Walk.step method) .start = .ok walk ∧ walk.depth = f'.depth ∧
      IsGreatest (Flow.depthAt atLabel .start code '' Set.Iic code.length) walk.maxDepth := by
  obtain ⟨walk, hRun, hFollows, _, hUpper, hLower⟩ := Walk.follows_start.run method hFlows
  refine ⟨walk, hRun, hFollows.depth, ?_, ?_⟩
  · obtain ⟨place, hPlace, hLe⟩ : ∃ place ≤ code.length,
        walk.maxDepth ≤ Flow.depthAt atLabel .start code place := by
      rcases hLower with hZero | hPlace
      · exact ⟨0, Nat.zero_le _, Nat.le_trans hZero (Nat.zero_le _)⟩
      · exact hPlace
    exact ⟨place, hPlace, Nat.le_antisymm (hUpper place hPlace) hLe⟩
  · rintro _ ⟨place, hPlace, rfl⟩
    exact hUpper place hPlace

/-- A class file states just the depths below `UInt16.size`, and states them as they are. A depth that is
stated is thus never cut off. -/
theorem depthLimit_ok {method : String} {depth : Nat} {limit : UInt16} :
    depthLimit method depth = .ok limit ↔ limit.toNat = depth := by
  unfold depthLimit
  split
  · rename_i hFits
    rw [Except.ok.injEq, ← UInt16.toNat_inj, UInt16.toNat_ofNat_of_lt' hFits, eq_comm]
  · rename_i hFull
    refine iff_of_false nofun ?_
    rintro rfl
    exact hFull limit.toNat_lt

theorem map_depthLimit_ok {α : Type} {f : UInt16 → α} {a : α} {method : String} {depth : Nat} :
    (depthLimit method depth).map f = .ok a ↔ ∃ limit, limit.toNat = depth ∧ f limit = a := by
  simp only [← @depthLimit_ok method]
  cases depthLimit method depth <;> simp [Except.map]

/-- The limit that a class file states is the greatest depth, if it can state it. The depth at the end
must be zero for this form. -/
theorem Flows.usage {atLabel : String → Nat} {f' : Flow} {code : List Instr} (method : String)
    (hFlows : Flows atLabel .start code f') (hEmpty : f'.depth = 0) :
    ∃ greatest, IsGreatest (Flow.depthAt atLabel .start code '' Set.Iic code.length) greatest ∧
      usage method code = (depthLimit method greatest).map (⟨·, 0⟩) := by
  obtain ⟨walk, hRun, hDepth, hGreatest⟩ := hFlows.walk method
  refine ⟨walk.maxDepth, hGreatest, ?_⟩
  have hEnd : depthLimit method walk.depth = .ok 0 := by
    rw [hDepth, hEmpty]
    rfl
  simp only [Stack.usage, hRun, bind, Except.bind, hEnd]
  cases depthLimit method walk.maxDepth <;> rfl

end MiniJava.Stack
