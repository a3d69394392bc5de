import ShaderIR.Proofs.Preserve.Failure

/-!
# Where a run breaks off

An error about an index, or about the shape of an element, could be told from the function and
its signatures alone, yet it is found only after the slots of all written elements have been
placed. So such an error does not leave the function as it was. The intrinsics are as they were
unless an element has too many columns: then the intrinsic that stores this element has been
declared.
-/

set_option autoImplicit false

namespace ShaderIR

/-- The pass places no returns. This holds of values without a number, too. -/
theorem Function.Grows.live_of_mem_returns {f g : Function} (h : f.Grows g) (hg : g.Consistent)
    {i : InstrId} (hi : i ∈ g.returns) : ∃ ins, f.instr? i = some ins := by
  obtain ⟨ins, hins, hret⟩ := hg.mem_returns.mp hi
  by_cases hold : i.index < f.arena.size
  · exact ⟨ins, (h.extension.instr?_old i hold).symm.trans hins⟩
  · have hstraight := h.extension.straight i ins (Nat.le_of_not_lt hold) hins
    cases ins with
    | ret vs => cases hstraight
    | _ => cases hret

namespace Preserve

/-- A run has placed the slots of all written elements, and after that it has only added to the
function. What it has declared depends on the error. -/
structure BrokenOff (f : Function) (m : Metadata) (e : PassError) (ts : List Target)
    (r : PassRun) : Prop where
  written : Target.Written f m ts
  nonempty : ts ≠ []
  begun : (allocateSlots f (Scratch.allot f.nextValue ts)).Grows r.func
  undeclared : e.OfIndex f.name → r.metadata = m
  declared : ¬e.OfIndex f.name → ∃ t ∈ ts, Element.columnLimit < t.element.cols ∧
    e = .unsupportedShader f.name (.tooManyColumns t.element.name) ∧
    t.intrinsic ∈ r.metadata.ops.declared

theorem BrokenOff.arena_lt {f : Function} {m : Metadata} {e : PassError} {ts : List Target}
    {r : PassRun} (h : BrokenOff f m e ts r) : f.arena.size < r.func.arena.size := by
  have hpos := List.length_pos_iff.mpr h.nonempty
  have hle := h.begun.extension.arena_le
  rw [arena_size_allocateSlots] at hle
  omega

namespace Collected

variable {f : Function} {m : Metadata} {stores : List OutputStore} {ts : List Target}
  (h : Collected f m stores ts)
include h

theorem targets_ne_nil : ts ≠ [] := by
  obtain ⟨o, ho⟩ := List.exists_mem_of_ne_nil _ h.nonempty
  obtain ⟨t, ht, -⟩ := (Target.exists_of_collect h.targets).2 o ho
  exact List.ne_nil_of_mem ht

theorem live_of_mem_returns (hf : f.Consistent) {u : Function}
    (hl : lowerStores (Scratch.allot f.nextValue ts) stores
      (allocateSlots f (Scratch.allot f.nextValue ts)) = (u, none)) :
    ∀ i ∈ u.returns, ∃ ins, f.instr? i = some ins := by
  have hgrown := (grows_allocateSlots f ts).lowerStores (Scratch.allot f.nextValue ts) stores
  have hkept := (h.consistent_allocateSlots hf).lowerStores (Scratch.allot f.nextValue ts) stores
  rw [hl] at hgrown hkept
  exact fun i hi => hgrown.live_of_mem_returns hkept hi

end Collected

theorem brokenOff_of_failsLate {f : Function} {m : Metadata} {e : PassError} (hf : f.Consistent)
    (h : FailsLate f m e) : e.OfShape f.name ∧ ∃ ts, BrokenOff f m e ts (run f m) := by
  cases h with
  | lowering stores ts hc hl hgrows hmetadata =>
    have hindex := hc.error_of_lowerStores hf hl
    exact ⟨hindex.ofShape, ts, Target.written_of_collect hc.read hc.targets, hc.targets_ne_nil,
      hgrows, fun _ => hmetadata, fun hno => absurd hindex hno⟩
  | flushing stores ts hc u hl he hgrows =>
    have hwide := hc.tooWide_of_emitEpilogues hf hl (hc.live_of_mem_returns hf hl) he
    refine ⟨hwide.ofShape, ts, Target.written_of_collect hc.read hc.targets, hc.targets_ne_nil,
      hgrows, ?_, fun _ => ?_⟩
    · obtain ⟨s, -, -, rfl, -⟩ := hwide
      rintro ⟨⟩
    · obtain ⟨s, hs, hcols, heq, hdeclared⟩ := hwide
      refine ⟨s.target, ?_, hcols, heq, hdeclared⟩
      rw [← Scratch.map_target_allot f.nextValue ts]
      exact List.mem_map_of_mem hs

/-- A run that fails leaves everything as it was exactly if the error is about the output stores or
the elements that they name. An error about an index or the shape of an element breaks it off. -/
theorem unchanged_iff_ofStores {f : Function} {m : Metadata} {e : PassError} (hf : f.Made)
    (h : (run f m).verdict = .error (.error e)) :
    ((run f m).func = f ∧ (run f m).metadata = m ↔ e.OfStores f.name) ∧
      (e.OfStores f.name ∨ e.OfShape f.name ∧ ∃ ts, BrokenOff f m e ts (run f m)) := by
  rcases failsEarly_or_failsLate h with hearly | hlate
  · have hstores := ofStores_of_failsEarly hearly
    rw [run_of_failsEarly hearly]
    exact ⟨iff_of_true ⟨rfl, rfl⟩ hstores, Or.inl hstores⟩
  · obtain ⟨hshape, ts, hbroken⟩ := brokenOff_of_failsLate hf.consistent hlate
    refine ⟨iff_of_false ?_ fun hstores => hstores.not_ofShape hshape, Or.inr ⟨hshape, ts, hbroken⟩⟩
    rintro ⟨hfunc, -⟩
    have hlt := hbroken.arena_lt
    rw [hfunc] at hlt
    exact Nat.lt_irrefl _ hlt

/-- The column is a float of the function itself. With the element, the run breaks off at it;
without the element, the function is left as it was. -/
theorem misindexed_brokenOff :
    (∃ ts, BrokenOff misindexed sparseMetadata
      (.unsupportedShader "main" (.columnNotInteger ⟨3⟩ "A")) ts (run misindexed sparseMetadata)) ∧
    (run misindexed .empty).verdict =
        .error (.error (.unknownSignatureElement "main" "output" 0)) ∧
      (run misindexed .empty).func = misindexed := by
  have hlate : (run misindexed sparseMetadata).verdict =
      .error (.error (.unsupportedShader "main" (.columnNotInteger ⟨3⟩ "A"))) := rfl
  have hearly : (run misindexed .empty).verdict =
      .error (.error (.unknownSignatureElement "main" "output" 0)) := rfl
  obtain ⟨-, hstores | ⟨-, hbroken⟩⟩ := unchanged_iff_ofStores made_misindexed hlate
  · cases hstores
  · obtain ⟨hiff, -⟩ := unchanged_iff_ofStores made_misindexed hearly
    exact ⟨hbroken, hearly, (hiff.mpr (.unknownElement "output" 0)).1⟩

/-- The slot and the offset of the row are there when the column is found to be no integer. -/
theorem misindexed_changed :
    misindexed.Made ∧ misindexed.Numbered ∧ sparseMetadata.Built ∧
      misindexed.typeOf? ⟨3⟩ = some (.scalar .f32) ∧
      (run misindexed sparseMetadata).verdict =
        .error (.error (.unsupportedShader "main" (.columnNotInteger ⟨3⟩ "A"))) ∧
      (run misindexed sparseMetadata).func.arena.size = misindexed.arena.size + 3 ∧
      (run misindexed sparseMetadata).func ≠ misindexed := by
  have hsize : (run misindexed sparseMetadata).func.arena.size = misindexed.arena.size + 3 := rfl
  refine ⟨made_misindexed, by decide, made_sparseMetadata.built, rfl, rfl, hsize, fun heq => ?_⟩
  rw [heq] at hsize
  omega

end Preserve

end ShaderIR
