import SortKey.Proofs.Chains
import SortKey.Proofs.Splices

/-!
# Keys that are placed in a buffer

Written into a buffer of fixed size, each component goes where the one before it ended, so after any
number of writes the buffer holds a front part of the key and is otherwise as it was. A write either
finds room for all its bytes or changes nothing. It finds none if its bytes would end behind the
buffer, and fails before it has looked there if their end is no index. Since every buffer ends at an
index, that is all there is to it.
-/

namespace SortKey.Buffer

/-- The buffer with the bytes from an offset on replaced by those of a key. -/
def placed (cs : List Component) (start : Nat) (buf : Bytes) : Bytes :=
  (Span.mk start (start + (Key.encode cs).length)).splice buf (Key.encode cs)

/-- There is room for a key at an offset. Nothing fits anywhere, even past the end. -/
def Fits (cs : List Component) (start : Nat) (buf : Bytes) : Prop :=
  cs = [] ∨ start + (Key.encode cs).length ≤ buf.length

variable {c : Component} {cs cs' : List Component} {start : Nat} {buf : Bytes}

theorem placed_nil (start : Nat) (buf : Bytes) : placed [] start buf = buf := by
  simp [placed, Span.splice]

theorem length_placed (h : Fits cs start buf) : (placed cs start buf).length = buf.length := by
  rcases h with rfl | h
  · rw [placed_nil]
  · exact Span.length_splice rfl h

/-- Nothing is changed before the offset or past the key. -/
theorem getElem?_placed (h : Fits cs start buf) {i : Nat}
    (hi : i < start ∨ start + (Key.encode cs).length ≤ i) :
    (placed cs start buf)[i]? = buf[i]? := by
  rcases h with rfl | h
  · rw [placed_nil]
  · exact Span.getElem?_splice_outside rfl h hi

/-- A key is placed in two parts, the second where the first one ends. -/
theorem placed_append (h : Fits cs start buf) :
    placed cs' (start + (Key.encode cs).length) (placed cs start buf) =
      placed (cs ++ cs') start buf := by
  rcases h with rfl | h
  · rw [placed_nil]
    rfl
  · unfold placed
    rw [Key.encode_append, List.length_append, ← Nat.add_assoc]
    exact Span.splice_splice rfl rfl (by omega)

theorem Fits.take (h : Fits cs start buf) (n : Nat) : Fits (cs.take n) start buf := by
  rcases h with rfl | h
  · exact Or.inl List.take_nil
  · have hle := (Key.encode_take_isPrefix n cs).length_le
    exact Or.inr (by omega)

theorem fits_take_iff {k : Nat} (hk : k ≤ cs.length) :
    Fits (cs.take k) start buf ↔ k = 0 ∨ start + (Key.encode (cs.take k)).length ≤ buf.length := by
  unfold Fits
  rw [List.take_eq_nil_iff]
  refine or_congr_left ⟨?_, Or.inl⟩
  rintro (rfl | rfl)
  · rfl
  · exact Nat.le_zero.mp hk

theorem fits_append (h : Fits cs start buf) (hne : cs' ≠ []) :
    Fits (cs ++ cs') start buf ↔
      Fits cs' (start + (Key.encode cs).length) (placed cs start buf) := by
  unfold Fits
  rw [length_placed h, Key.encode_append, List.length_append, ← Nat.add_assoc]
  simp [hne]

theorem fits_singleton_iff : Fits [c] start buf ↔ start + c.encode.length ≤ buf.length := by
  simp only [Fits, List.cons_ne_nil, false_or, Key.encode_singleton]

theorem write_of_fits (hbuf : buf.length < indexLimit) (h : Fits [c] start buf) :
    write c.value start buf = .ok (start + c.encode.length) (placed [c] start buf) := by
  rw [fits_singleton_iff] at h
  unfold placed
  rw [Key.encode_singleton]
  exact write_ok h (Nat.lt_of_le_of_lt h hbuf)

theorem write_of_not_fits (h : ¬ Fits [c] start buf) :
    write c.value start buf = .error (refusal (start + c.encode.length)) buf := by
  rw [fits_singleton_iff, Nat.not_le] at h
  exact write_error fun _ => h

/-- Behind a key that is placed, a component is added to it or changes nothing. -/
theorem write_placed_cases (hbuf : buf.length < indexLimit) (h : Fits cs start buf)
    (c : Component) :
    (Fits (cs ++ [c]) start buf ∧
        write c.value (start + (Key.encode cs).length) (placed cs start buf) =
          .ok (start + (Key.encode (cs ++ [c])).length) (placed (cs ++ [c]) start buf)) ∨
      (¬ Fits (cs ++ [c]) start buf ∧
        write c.value (start + (Key.encode cs).length) (placed cs start buf) =
          .error (refusal (start + (Key.encode (cs ++ [c])).length)) (placed cs start buf)) := by
  have hiff := fits_append h (List.cons_ne_nil c [])
  have hlen : start + (Key.encode cs).length + c.encode.length =
      start + (Key.encode (cs ++ [c])).length := by
    rw [Key.encode_append, Key.encode_singleton, List.length_append, Nat.add_assoc]
  rw [← hlen]
  by_cases hfit : Fits (cs ++ [c]) start buf
  · refine Or.inl ⟨hfit, ?_⟩
    rw [write_of_fits (by rwa [length_placed h]) (hiff.mp hfit), placed_append h]
  · exact Or.inr ⟨hfit, write_of_not_fits (mt hiff.mpr hfit)⟩

theorem write_next_cases {k : Nat} (hbuf : buf.length < indexLimit) (hc : cs[k]? = some c)
    (h : Fits (cs.take k) start buf) :
    (Fits (cs.take (k + 1)) start buf ∧
        write c.value (start + (Key.encode (cs.take k)).length) (placed (cs.take k) start buf) =
          .ok (start + (Key.encode (cs.take (k + 1))).length)
            (placed (cs.take (k + 1)) start buf)) ∨
      (¬ Fits (cs.take (k + 1)) start buf ∧
        write c.value (start + (Key.encode (cs.take k)).length) (placed (cs.take k) start buf) =
          .error (refusal (start + (Key.encode (cs.take (k + 1))).length))
            (placed (cs.take k) start buf)) := by
  have hsucc : cs.take (k + 1) = cs.take k ++ [c] := by
    rw [List.take_add_one, hc]
    rfl
  rw [hsucc]
  exact write_placed_cases hbuf h c

/-- A chain of writes runs through if the whole key fits. Otherwise it ends at the first component
that does not, behind those that do. -/
theorem writeAll_cases (cs : List Component) (start : Nat) (hbuf : buf.length < indexLimit) :
    (Fits cs start buf ∧ writeAll cs start buf = .ok (Key.ends start cs) (placed cs start buf)) ∨
      ∃ j < cs.length, Fits (cs.take j) start buf ∧ ¬ Fits (cs.take (j + 1)) start buf ∧
        writeAll cs start buf = .error (refusal (start + (Key.encode (cs.take (j + 1))).length))
          (placed (cs.take j) start buf) := by
  induction cs generalizing start buf with
  | nil =>
      refine Or.inl ⟨Or.inl rfl, ?_⟩
      rw [placed_nil]
      rfl
  | cons c cs ih =>
      -- Behind the first component the rest is a key of its own, placed in what that one left.
      by_cases hfit : Fits [c] start buf
      · have hcons : ∀ front, placed front (start + c.encode.length) (placed [c] start buf) =
            placed (c :: front) start buf := by
          intro front
          rw [← Key.encode_singleton]
          exact placed_append hfit
        have hiff : ∀ front, Fits (c :: front) start buf ↔
            Fits front (start + c.encode.length) (placed [c] start buf) := by
          intro front
          cases front with
          | nil => exact iff_of_true hfit (Or.inl rfl)
          | cons d front =>
              rw [← Key.encode_singleton]
              exact fits_append hfit (List.cons_ne_nil d front)
        rw [writeAll, bind_ok (write_of_fits hbuf hfit)]
        rcases ih (start + c.encode.length) (by rwa [length_placed hfit]) with
          ⟨hall, hrun⟩ | ⟨j, hj, hfront, hnot, hrun⟩
        · refine Or.inl ⟨(hiff cs).mpr hall, ?_⟩
          rw [bind_ok hrun, hcons]
          rfl
        · refine Or.inr ⟨j + 1, Nat.succ_lt_succ hj, (hiff _).mpr hfront, mt (hiff _).mp hnot, ?_⟩
          rw [bind_error hrun, hcons, List.take_succ_cons, List.take_succ_cons, Key.encode_cons,
            List.length_append, Nat.add_assoc]
      · refine Or.inr ⟨0, Nat.succ_pos _, Or.inl rfl, hfit, ?_⟩
        rw [writeAll, bind_error (write_of_not_fits hfit), List.take_zero, placed_nil,
          List.take_succ_cons, List.take_zero, Key.encode_singleton]

theorem writeAll_of_fits (hbuf : buf.length < indexLimit) (h : Fits cs start buf) :
    writeAll cs start buf = .ok (Key.ends start cs) (placed cs start buf) := by
  rcases writeAll_cases cs start hbuf with ⟨-, hrun⟩ | ⟨j, -, -, hnot, -⟩
  · exact hrun
  · exact absurd (h.take (j + 1)) hnot

theorem writeAll_of_not_fits (hbuf : buf.length < indexLimit) (h : ¬ Fits cs start buf) :
    ∃ j < cs.length, Fits (cs.take j) start buf ∧ ¬ Fits (cs.take (j + 1)) start buf ∧
      writeAll cs start buf = .error (refusal (start + (Key.encode (cs.take (j + 1))).length))
        (placed (cs.take j) start buf) := by
  rcases writeAll_cases cs start hbuf with ⟨hall, -⟩ | hstop
  · exact absurd hall h
  · exact hstop

theorem ends_take {k : Nat} (hk : k ≤ cs.length) (start : Nat) :
    Key.ends start (cs.take k) =
      (List.range k).map fun i => start + (Key.encode (cs.take (i + 1))).length := by
  rw [Key.ends_eq_map, List.length_take_of_le hk]
  apply List.map_congr_left
  intro i hi
  rw [List.take_take, Nat.min_eq_left (List.mem_range.mp hi)]

/-- Where the lengths of the first values add up to no more than the room behind the offset, these
are written back to back, each answered by the offset past it, and nothing else is changed. The next
one then finds room, or fails and changes nothing, because it ends behind the buffer or because its
end overflows; so a chain that is too long stops with the values that fit. What is written is what
the same values append to a stream. -/
theorem chained_writes_exact (cs : List Component) (start : Nat) (buf : Bytes)
    (hbuf : buf.length < indexLimit) :
    ∃ lens : List Nat, cs.mapM (fun c => c.value.stagedLength) = .ok lens ∧
      let past := fun k => start + (lens.take k).sum
      let now := fun k => buf.take start ++ Key.encode (cs.take k) ++ buf.drop (past k)
      ∀ k ≤ cs.length,
        (∀ (γ : Type) [BufMut γ] [LawfulBufMut γ] (out : γ), ∃ out',
          (cs.take k).forM Stream.Output.sorted out = .ok ⟨⟩ out' ∧
          BufMut.content out' = BufMut.content out ++ Key.encode (cs.take k)) ∧
        (k = 0 ∨ past k ≤ buf.length →
          writeAll (cs.take k) start buf =
            .ok ((List.range k).map fun i => past (i + 1)) (now k) ∧
          (now k).length = buf.length ∧
          (∀ i, i < start ∨ past k ≤ i → (now k)[i]? = buf[i]?) ∧
          ∀ c ∈ cs[k]?, write c.value (past k) (now k) =
            if past (k + 1) ≤ buf.length then .ok (past (k + 1)) (now (k + 1))
            else .error (refusal (past (k + 1))) (now k)) ∧
        (¬ (k = 0 ∨ past k ≤ buf.length) →
          ∃ j < k, (j = 0 ∨ past j ≤ buf.length) ∧ buf.length < past (j + 1) ∧
            writeAll (cs.take k) start buf = .error (refusal (past (j + 1))) (now j)) := by
  refine ⟨_, Key.mapM_stagedLength cs, ?_⟩
  intro past now k hk
  have hpast : ∀ k, past k = start + (Key.encode (cs.take k)).length := by
    intro k
    simp only [past, ← List.map_take, ← Key.length_encode]
  have hnow : ∀ k, now k = placed (cs.take k) start buf := by
    intro k
    simp only [now, hpast]
    rfl
  have hfits : ∀ k ≤ cs.length, (k = 0 ∨ past k ≤ buf.length ↔ Fits (cs.take k) start buf) := by
    intro k hk
    rw [hpast, fits_take_iff hk]
  refine ⟨fun γ _ _ out => Stream.Output.forM_sorted _ out, ?_, ?_⟩
  · intro h
    have hfit := (hfits k hk).mp h
    refine ⟨?_, ?_, ?_, ?_⟩
    · rw [writeAll_of_fits hbuf hfit, ends_take hk, hnow]
      simp only [hpast]
    · rw [hnow]
      exact length_placed hfit
    · intro i hi
      rw [hnow]
      apply getElem?_placed hfit
      rwa [← hpast]
    · intro c hc
      have hlt : k < cs.length := (List.getElem?_eq_some_iff.mp hc).1
      have hnext := hfits (k + 1) hlt
      simp only [Nat.succ_ne_zero, false_or] at hnext
      rcases write_next_cases hbuf hc hfit with ⟨hroom, hrun⟩ | ⟨hroom, hrun⟩
      · rw [if_pos (hnext.mpr hroom), hnow, hnow, hpast, hpast]
        exact hrun
      · rw [if_neg (mt hnext.mp hroom), hnow, hpast, hpast]
        exact hrun
  · intro h
    obtain ⟨j, hj, hfront, hnot, hrun⟩ := writeAll_of_not_fits hbuf (mt (hfits k hk).mpr h)
    rw [List.length_take_of_le hk] at hj
    simp only [List.take_take, Nat.min_eq_left (Nat.le_of_lt hj),
      Nat.min_eq_left (Nat.succ_le_of_lt hj)] at hfront hnot hrun
    rw [← hfits j (by omega)] at hfront
    rw [← hfits (j + 1) (by omega)] at hnot
    refine ⟨j, hj, hfront, ?_, ?_⟩
    · omega
    · rw [hnow, hpast]
      exact hrun

/-- Two values find room in the middle of a buffer and a third does not, and nothing is written at
the greatest offset that an index can hold. -/
theorem two_of_three_placed :
    writeAll [⟨.w32, ⟨126⟩⟩, ⟨.w64, ⟨-120⟩⟩] 1 [0x2A, 0x2B, 0x2C, 0x2D, 0x2E] =
        .ok [3, 5] [0x2A, 0xF8, 0x05, 0x07, 0xFF] ∧
      write (⟨0⟩ : Signed .w32) 5 [0x2A, 0xF8, 0x05, 0x07, 0xFF] =
        .error .indexOutOfRange [0x2A, 0xF8, 0x05, 0x07, 0xFF] ∧
      write (⟨126⟩ : Signed .w32) (indexLimit - 1) [0x2A, 0x2B] =
        .error .overflow [0x2A, 0x2B] := by
  obtain ⟨lens, hlens, hchain⟩ := chained_writes_exact
    [⟨.w32, ⟨126⟩⟩, ⟨.w64, ⟨-120⟩⟩, ⟨.w32, ⟨0⟩⟩] 1 [0x2A, 0x2B, 0x2C, 0x2D, 0x2E] (by decide)
  obtain rfl : lens = [2, 2, 1] := (Except.ok.inj hlens).symm
  obtain ⟨-, htwo, -⟩ := hchain 2 (by decide)
  obtain ⟨hrun, -, -, hthird⟩ := htwo (by decide)
  obtain ⟨lens', hlens', hfar⟩ := chained_writes_exact [⟨.w32, ⟨126⟩⟩] (indexLimit - 1) [0x2A, 0x2B]
    (by decide)
  obtain rfl : lens' = [2] := (Except.ok.inj hlens').symm
  obtain ⟨-, hnone, -⟩ := hfar 0 (by decide)
  obtain ⟨-, -, -, hfirst⟩ := hnone (by decide)
  exact ⟨hrun, hthird _ rfl, hfirst _ rfl⟩

end SortKey.Buffer
