import MiniJava.Proofs.Assembly.Balance

/-! The stack effect of single instructions, whichever code they stand in and whatever objects wait:
an instruction leaves the stack as deep as it finds it, unless it brings a waiting object or takes
one, and it needs no more than the object that it takes. -/

namespace MiniJava.Stack

/-- What code does to a stack of `first` values on every way through it. The only label elsewhere to
which it may jump is `exit?`. -/
structure Effect (code : List Instr) (first : Nat) (last : Int) (exit? : Option String) : Prop where
  pops_le : ∀ {place k i}, ArrivesFrom code first place k → code[place]? = some i → i.pops ≤ k
  ends : ∀ {k}, ArrivesFrom code first code.length k → k = last
  /-- The last instruction leaves what the code does, also where control does not go on. -/
  final : ∀ {earlier i k}, code = earlier ++ [i] → ArrivesFrom code first earlier.length k →
    k + i.delta = last
  leaves : ∀ {place k i name}, ArrivesFrom code first place k → code[place]? = some i →
    i.target? = some name → name ∉ labels code → exit? = some name ∧ k + i.delta = first
  walk : ∀ method, ∃ walk, code.foldlM (Walk.step method) ⟨first, first, true, ∅⟩ = .ok walk ∧
    walk.depth = last

namespace Effect

variable {atLabel : String → Nat} {f f' : Flow} {code : List Instr} {first last : Nat}
  {exit? : Option String}

/-- Depths that are assigned to labels tell about all ways through the code. Every jump out of the code
is the one to `exit?`, and what the walk ends with is the depth behind the code. -/
theorem of_flows (hFlows : Flows atLabel f code f') (hStart : f.falls = true)
    (hExit : ∀ name ∈ targets code, name ∉ labels code →
      exit? = some name ∧ atLabel name = f.depth)
    (hWalk : ∀ method, ∃ walk, code.foldlM (Walk.step method) ⟨f.depth, f.depth, true, ∅⟩ =
      .ok walk ∧ walk.depth = f'.depth) : Effect code f.depth f'.depth exit? where
  pops_le hArrives hInstr := by
    rw [hArrives.eq_depthAt hFlows hStart]
    exact Int.ofNat_le.mpr (Flow.pops_le_depthAt hFlows hInstr)
  ends hArrives := by
    have hEnd : Flow.depthAt atLabel f (code ++ []) code.length = f'.depth :=
      Flow.depthAt_length hFlows
    rw [List.append_nil] at hEnd
    rw [hArrives.eq_depthAt hFlows hStart, hEnd]
  final := by
    rintro earlier i k rfl hArrives
    have hInstr : (earlier ++ [i])[earlier.length]? = some i := by simp
    have hAll : Flow.upTo atLabel f (earlier ++ [i]) (earlier.length + 1) = f' := by
      rw [Flow.upTo, hFlows.eq_foldl, List.take_of_length_le (by simp)]
    rw [hArrives.eq_depthAt hFlows hStart, Flow.depthAt, hInstr,
      ← Flow.next_depth (Flow.fits_upTo hFlows hInstr), ← Flow.upTo_succ hInstr, hAll]
  leaves := by
    intro place k i name hArrives hInstr hTarget hOutside
    have hMem : name ∈ targets code :=
      List.mem_filterMap.mpr ⟨i, List.mem_of_getElem? hInstr, hTarget⟩
    obtain ⟨hName, hDepth⟩ := hExit name hMem hOutside
    have hJump := Flow.jump_depth (Flow.fits_upTo hFlows hInstr) hTarget
    refine ⟨hName, ?_⟩
    rw [hArrives.eq_depthAt hFlows hStart, Flow.depthAt, hInstr, ← hJump, hDepth]
  walk method := by
    obtain ⟨walk, hRun, hDepth⟩ := hWalk method
    exact ⟨walk, hRun, congrArg Int.ofNat hDepth⟩

/-- Code that moves the depth between two numbers has this effect on each way, since the walk meets the
same depths. -/
theorem of_moves (hMoves : Moves atLabel first last code)
    (hExit : ∀ name ∈ targets code, name ∉ labels code →
      exit? = some name ∧ atLabel name = first) : Effect code first last exit? := by
  obtain ⟨f', hFlows, rfl⟩ := hMoves ⟨first, true, []⟩ rfl
  refine of_flows hFlows rfl hExit fun method => ?_
  obtain ⟨walk, hRun, hFollows, -⟩ := (Walk.follows_from first).run method hFlows
  exact ⟨walk, hRun, hFollows.depth⟩

/-- A label alone leaves the stack as deep as it is entered, whatever that depth is. -/
theorem label (name : String) (first : Nat) : Effect [.label name] first first none := by
  have hFlows : Flows (fun _ => first) ⟨first, true, [name]⟩ [.label name] ⟨first, true, [name]⟩ :=
    .cons ⟨fun _ => rfl, .inr (List.mem_singleton.mpr rfl)⟩ (.nil _)
  exact of_flows hFlows rfl nofun fun method => ⟨_, rfl, rfl⟩

end Effect

end MiniJava.Stack

namespace MiniJava.Assembly

open Code (Label)
open Stack (Effect)

section Selection

variable {site : Site} {p p' : Progress} {i : Code.Instr} {code : List Stack.Instr} {depth : Nat}

/-- By how much the instruction makes the stack deeper: by one if it allocates an object. If it takes one
that waits, the stack is less deep by one, and else it stays. -/
def Progress.growth (p : Progress) (i : Code.Instr) : Int :=
  if i.allocates?.isSome then 1 else if p.takes i then -1 else 0

theorem takes_of_allocates? (p : Progress) {name : String} (h : i.allocates? = some name) :
    p.takes i = false := by
  unfold Code.Instr.allocates? at h
  split at h
  · rfl
  · cases h

/-- The growth as a difference. At most one of the two is not zero, since no instruction both makes and
takes an object. -/
theorem Progress.growth_eq (p : Progress) (i : Code.Instr) :
    p.growth i = i.allocates?.isSome.toNat - (p.takes i).toNat := by
  unfold Progress.growth
  cases hAllocates : i.allocates? with
  | some name =>
      rw [takes_of_allocates? p hAllocates]
      rfl
  | none => cases p.takes i <;> rfl

theorem takes_of_target? (p : Progress) {l : Label} (h : i.target? = some l) : p.takes i = false := by
  cases i <;> first | rfl | cases h

/-- Jumps of the code of an instruction stay in it, or they are the jump of the instruction. The labels
of the code are those of its comparisons. -/
theorem exit_of_emitted {first last : Nat} {source : List Code.Instr}
    (h : Emitted first last source code) {name : String} (hTarget : name ∈ Stack.targets code)
    (hOutside : name ∉ Stack.labels code) : ∃ l ∈ Code.targets source, name = l.text := by
  rcases h.targets name hTarget with hText | hComparison
  · obtain ⟨l, hl, rfl⟩ := List.mem_map.mp hText
    exact ⟨l, hl, rfl⟩
  · rw [h.labels.mem_iff, List.mem_append] at hOutside
    exact (hOutside (.inr hComparison)).elim

theorem sub_taken_add {taken : Bool} (hDepth : taken = true → 1 ≤ depth) :
    depth - taken.toNat + taken.toNat = depth := by
  cases taken with
  | false => rfl
  | true => exact Nat.sub_add_cancel (hDepth rfl)

/-- The effect of one instruction, from any depth that leaves room for what it takes. The depth below is
never looked at. -/
theorem effect_instr (hDepth : p.takes i = true → 1 ≤ depth)
    (h : (site.instr i).run p = .ok (code, p')) :
    Effect code depth (depth + p.growth i) (i.target?.map Label.text) := by
  cases hLabel : i.label? with
  | some l =>
      cases i <;> cases hLabel
      obtain ⟨rfl, -⟩ := Site.instr_label_run.mp h
      exact .label l.text depth
  | none =>
      obtain ⟨base, hMoves⟩ := moves_selected (depth - (p.takes i).toNat) hLabel h
      obtain ⟨atLabel, hComparisons, hTexts⟩ :=
        exists_atLabel (fun _ => base) (fun _ => base + 1) fun _ => depth - (p.takes i).toNat
      have hMoves := hMoves atLabel (fun id _ _ => hComparisons id) fun l _ => hTexts l
      rw [sub_taken_add hDepth] at hMoves
      have hLast : (depth : Int) + p.growth i =
          (depth - (p.takes i).toNat + i.allocates?.isSome.toNat : Nat) := by
        have hEnough := sub_taken_add hDepth
        rw [p.growth_eq]
        omega
      rw [hLast]
      refine .of_moves hMoves fun name hTarget hOutside => ?_
      obtain ⟨l, hl, rfl⟩ := exit_of_emitted (emitted_instr h) hTarget hOutside
      have hJump : i.target? = some l := by simpa [Code.targets] using hl
      rw [hJump, hTexts, takes_of_target? p hJump]
      exact ⟨rfl, rfl⟩

/-- The effect of a value: one value more, or the same depth where it takes an object that waits. No jump
leaves it. -/
theorem effect_value (hDepth : p.takes i = true → 1 ≤ depth)
    (h : (site.value i).run p = .ok (code, p')) :
    Effect code depth (depth + if p.takes i then 0 else 1) none := by
  obtain ⟨atLabel, hComparisons, -⟩ := exists_atLabel (fun _ => depth - (p.takes i).toNat)
    (fun _ => depth - (p.takes i).toNat + 1) fun _ => 0
  have hMoves := moves_value h fun id _ _ => hComparisons id
  rw [sub_taken_add hDepth] at hMoves
  have hLast : (depth : Int) + (if p.takes i then 0 else 1) =
      (depth - (p.takes i).toNat + 1 : Nat) := by
    have hEnough := sub_taken_add hDepth
    cases hTakes : p.takes i <;> simp [hTakes] at hEnough ⊢
    omega
  rw [hLast]
  refine .of_moves hMoves fun name hTarget hOutside => ?_
  obtain ⟨_, hl, -⟩ := exit_of_emitted (emitted_value h) hTarget hOutside
  cases hl

end Selection

/-- Every instruction that can be selected, in whatever state of the selection, leaves the stack as
deep as it finds it on every way through its code. Only a new object that is assigned to a variable
stays, and waits; only a special call on a variable whose object waits takes one, which is all that an
instruction needs. By its jump an instruction leaves with the depth that it finds. Likewise
the code of a value adds one value, or replaces the object that it takes. -/
theorem selected_stack_effect (site : Site) (p : Progress) (i : Code.Instr) (depth : Nat)
    (hDepth : p.takes i = true → 1 ≤ depth) :
    (∀ code p', (site.instr i).run p = .ok (code, p') →
      Effect code depth (depth + p.growth i) (i.target?.map Label.text) ∧
      ∀ name, name ∈ p'.pending ↔
        i.allocates? = some name ∨ name ∈ p.pending ∧ i.constructs? ≠ some name) ∧
    ∀ code p', (site.value i).run p = .ok (code, p') →
      Effect code depth (depth + if p.takes i then 0 else 1) none ∧
      ∀ name, name ∈ p'.pending ↔ name ∈ p.pending ∧ i.constructs? ≠ some name :=
  ⟨fun _ _ h => ⟨effect_instr hDepth h, fun _ => mem_pending_instr h⟩,
    fun _ _ h => ⟨effect_value hDepth h, fun _ => mem_pending_value h⟩⟩

namespace Stray

/-- A special call for a value, on an object that waits, whose value goes to an item of an array. -/
def instr : Code.Instr :=
  .assign (.element "xs" (.int 0) .int32) .int32
    (.call .invokeSpecial (.variable "box" (.object "Box")) (some "get") [] .int32)

/-- A site in which the array is in slot 0 and the object has no slot at all. -/
def site : Site :=
  ⟨.ofUnit "java/lang/Object" Spin.unit, Spin.method, ⟨(∅ : Std.HashMap String UInt16).insert "xs" 0, 1⟩⟩

def code : List Stack.Instr :=
  [.loadShort .reference 0, .iconst 0, .invoke .special ⟨"Box", "get", [], "I"⟩, .arrayStore .int]

/-- The object that waits is taken from the stack, with the array and the place above it, and so no slot
is asked for it. -/
theorem selected : (site.instr instr).run ⟨0, ["box"]⟩ = .ok (code, .start) := by
  have hItems : site.slot "xs" = .ok 0 := by simp [Site.slot_ok, Frame.slot?, site]
  have hValue : (site.value (.call .invokeSpecial (.variable "box" (.object "Box")) (some "get") []
      .int32)).run ⟨0, ["box"]⟩ = .ok ([.invoke .special ⟨"Box", "get", [], "I"⟩], .start) := by
    with_unfolding_all rfl
  exact Site.assign_element_run.mpr ⟨.int, 0, [.iconst 0], _, rfl, hItems, rfl, hValue, rfl⟩

end Stray

/-- The call finds the array and the place above the object and takes one of the three. What is stored
takes the others and leaves nothing of the stack that had held the object. -/
theorem stray_stack_effect :
    (Stray.site.instr Stray.instr).run ⟨0, ["box"]⟩ = .ok (Stray.code, .start) ∧
      Progress.takes ⟨0, ["box"]⟩ Stray.instr = true ∧ Effect Stray.code 1 0 none := by
  have hTakes : Progress.takes ⟨0, ["box"]⟩ Stray.instr = true := by decide
  obtain ⟨hInstr, -⟩ := selected_stack_effect Stray.site ⟨0, ["box"]⟩ Stray.instr 1 fun _ => Nat.le_refl _
  exact ⟨Stray.selected, hTakes, (hInstr _ _ Stray.selected).1⟩

end MiniJava.Assembly
