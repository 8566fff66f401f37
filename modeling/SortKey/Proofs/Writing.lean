import SortKey.Buffer
import SortKey.Proofs.Ladder
import SortKey.Proofs.Splices
import SortKey.Stream.Output
import SortKey.Transfer.Encoding

/-!
# Writing encodings

A write into a buffer of fixed size replaces the bytes it needs and no others. Written one after
another, encodings fill a gap that is as long as all of them, and the offsets past them add up from
the first, as far as there are indices. A growing buffer and a consumer are given the same bytes.
-/

namespace SortKey

namespace Key

@[simp] theorem encode_nil : encode [] = [] := rfl

@[simp] theorem encode_cons (c : Component) (cs : List Component) :
    encode (c :: cs) = c.encode ++ encode cs := List.flatMap_cons

theorem encode_singleton (c : Component) : encode [c] = c.encode := by
  rw [encode_cons, encode_nil, List.append_nil]

@[simp] theorem encode_append (cs cs' : List Component) :
    encode (cs ++ cs') = encode cs ++ encode cs' := List.flatMap_append

theorem length_encode (cs : List Component) :
    (encode cs).length = (cs.map fun c => c.encode.length).sum := by
  rw [encode, List.length_flatMap]

theorem encode_take_isPrefix (n : Nat) (cs : List Component) :
    encode (cs.take n) <+: encode cs := by
  obtain ⟨rest, hrest⟩ := List.take_prefix n cs
  refine ⟨encode rest, ?_⟩
  conv_rhs => rw [← hrest, encode_append]

theorem mapM_stagedLength (cs : List Component) :
    cs.mapM (fun c => c.value.stagedLength) = .ok (cs.map fun c => c.encode.length) := by
  simp only [Signed.stagedLength_eq]
  exact List.mapM_pure

/-- The offsets past each component when the first is at `offset`. -/
def ends : Nat → List Component → List Nat
  | _, [] => []
  | offset, c :: cs => (offset + c.encode.length) :: ends (offset + c.encode.length) cs

theorem length_ends (offset : Nat) (cs : List Component) :
    (ends offset cs).length = cs.length := by
  induction cs generalizing offset with
  | nil => rfl
  | cons c cs ih => rw [ends, List.length_cons, List.length_cons, ih]

theorem ends_eq_map (offset : Nat) (cs : List Component) :
    ends offset cs =
      (List.range cs.length).map fun i => offset + (encode (cs.take (i + 1))).length := by
  induction cs generalizing offset with
  | nil => rfl
  | cons c cs ih =>
      rw [ends, ih, List.length_cons, List.range_succ_eq_map, List.map_cons, List.map_map]
      simp [Function.comp_def, Nat.add_assoc]

theorem getLast_ends (offset : Nat) (cs : List Component) :
    (ends offset cs).getLast?.getD offset = offset + (encode cs).length := by
  induction cs generalizing offset with
  | nil => rfl
  | cons c cs ih =>
      rw [ends, List.getLast?_cons, Option.getD_some, ih, encode_cons, List.length_append,
        Nat.add_assoc]

theorem length_encode_le_room (cs : List Component) :
    (encode cs).length ≤ room cs := by
  induction cs with
  | nil => exact Nat.zero_le _
  | cons c cs ih =>
      have hc : c.encode.length ≤ c.width.maxLength := by
        rw [Component.encode, Signed.length_encode, Signed.encodedLength,
          Lead.length_le_maxLength_iff]
        exact c.value.count_lead_le
      rw [encode_cons, List.length_append, room]
      omega

end Key

namespace Buffer

/-- Why bytes are refused that would end at `stop`: it lies behind the buffer, or is no index at
all. -/
def refusal (stop : Nat) : Violation :=
  if stop < indexLimit then .indexOutOfRange else .overflow

section Overwriting

variable {offset : Nat} {src buf : Bytes}

theorem overwrite_ok (h : offset + src.length ≤ buf.length)
    (hend : offset + src.length < indexLimit) :
    overwrite offset src buf =
      .ok () ((Span.mk offset (offset + src.length)).splice buf src) := by
  rw [overwrite, get_bind, addIndex_ok hend, checked_bind_ok, Range.span_between,
    if_pos ⟨Nat.le_add_right _ _, h⟩, checked_bind_ok, set_run]

theorem overwrite_error (h : offset + src.length < indexLimit → buf.length < offset + src.length) :
    overwrite offset src buf = .error (refusal (offset + src.length)) buf := by
  rw [overwrite, get_bind, refusal]
  by_cases hend : offset + src.length < indexLimit
  · have hlt := h hend
    rw [addIndex_ok hend, checked_bind_ok, Range.span_between, if_neg (by omega), if_pos hend]
    rfl
  · rw [addIndex_error (Nat.not_lt.mp hend), if_neg hend]
    rfl

end Overwriting

section Writing

variable {w : Width} {v : Signed w} {offset : Nat} {buf : Bytes}

theorem write_ok (h : offset + v.encode.length ≤ buf.length)
    (hend : offset + v.encode.length < indexLimit) :
    write v offset buf = .ok (offset + v.encode.length)
      ((Span.mk offset (offset + v.encode.length)).splice buf v.encode) := by
  rw [write, v.stagedEncode_eq, checked_bind_ok, bind_ok (overwrite_ok h hend), addIndex_ok hend]
  rfl

theorem write_error
    (h : offset + v.encode.length < indexLimit → buf.length < offset + v.encode.length) :
    write v offset buf = .error (refusal (offset + v.encode.length)) buf := by
  rw [write, v.stagedEncode_eq, checked_bind_ok, bind_error (overwrite_error h)]

end Writing

theorem write_gap {w : Width} (v : Signed w) (pre : Bytes) {gap : Bytes} (post : Bytes)
    (h : gap.length = v.encode.length) (hend : pre.length + v.encode.length < indexLimit) :
    write v pre.length (pre ++ gap ++ post) =
      .ok (pre.length + v.encode.length) (pre ++ v.encode ++ post) := by
  have hroom : pre.length + v.encode.length ≤ (pre ++ gap ++ post).length := by
    rw [List.length_append, List.length_append, h]
    exact Nat.le_add_right _ _
  rw [write_ok hroom hend, Span.splice_gap h]

theorem writeAll_gap (cs : List Component) (pre : Bytes) {gap : Bytes} (post : Bytes)
    (h : gap.length = (Key.encode cs).length)
    (hend : pre.length + (Key.encode cs).length < indexLimit) :
    writeAll cs pre.length (pre ++ gap ++ post) =
      .ok (Key.ends pre.length cs) (pre ++ Key.encode cs ++ post) := by
  induction cs generalizing pre gap with
  | nil =>
      have hgap : gap = [] := List.length_eq_zero_iff.mp h
      rw [hgap]
      rfl
  | cons c cs ih =>
      rw [Key.encode_cons, List.length_append] at h hend
      obtain ⟨g, g', rfl, hg, hg'⟩ : ∃ g g', gap = g ++ g' ∧
          g.length = c.encode.length ∧ g'.length = (Key.encode cs).length := by
        refine ⟨gap.take c.encode.length, gap.drop c.encode.length,
          (List.take_append_drop _ gap).symm, List.length_take_of_le (by omega), ?_⟩
        rw [List.length_drop]
        omega
      have hwrite := write_gap c.value pre (g' ++ post) hg
        (Nat.lt_of_le_of_lt (Nat.add_le_add_left (Nat.le_add_right _ _) _) hend)
      have hrest := ih (pre ++ c.encode) hg' (by rw [List.length_append]; omega)
      rw [List.length_append] at hrest
      simp only [List.append_assoc] at hwrite hrest
      rw [writeAll]
      simp only [Key.encode_cons, Key.ends, List.append_assoc]
      rw [bind_ok hwrite]
      exact bind_ok hrest _

/-- Where only the indices run out, and not the buffer, it is a sum that overflows. -/
theorem writeAll_overflow (cs : List Component) {start : Nat} {buf : Bytes}
    (hstart : start < indexLimit) (hroom : start + (Key.encode cs).length ≤ buf.length)
    (h : indexLimit ≤ start + (Key.encode cs).length) :
    ∃ buf', writeAll cs start buf = .error .overflow buf' := by
  induction cs generalizing start buf with
  | nil => exact absurd h (Nat.not_le.mpr hstart)
  | cons c cs ih =>
      rw [Key.encode_cons, List.length_append, ← Nat.add_assoc] at hroom h
      rw [writeAll]
      by_cases hend : start + c.value.encode.length < indexLimit
      · have hfit : start + c.value.encode.length ≤ buf.length :=
          Nat.le_trans (Nat.le_add_right _ _) hroom
        obtain ⟨buf', hrest⟩ := ih hend (by rwa [Span.length_splice (s := ⟨_, _⟩) rfl hfit]) h
        rw [bind_ok (write_ok hfit hend)]
        exact ⟨buf', bind_error hrest _⟩
      · rw [bind_error (write_error fun hlt => absurd hlt hend), refusal, if_neg hend]
        exact ⟨buf, rfl⟩

/-- The bytes of a key are what its components leave in a buffer with room for all. -/
theorem pack_eq (cs : List Component) :
    pack cs = if (Key.encode cs).length < indexLimit then .ok (Key.ends 0 cs, Key.encode cs)
      else .error .overflow := by
  have hle := Key.length_encode_le_room cs
  by_cases hend : (Key.encode cs).length < indexLimit
  · have hwrite := writeAll_gap cs [] (List.replicate (Key.room cs - (Key.encode cs).length) 0)
      (List.length_replicate (n := (Key.encode cs).length) (a := (0 : UInt8)))
      (by rwa [List.length_nil, Nat.zero_add])
    rw [List.nil_append, List.replicate_append_replicate, Nat.add_sub_cancel' hle] at hwrite
    have hlast := Key.getLast_ends 0 cs
    have hslice : (Range.upTo (Key.encode cs).length).slice
        (Key.encode cs ++ List.replicate (Key.room cs - (Key.encode cs).length) 0) =
          .ok (Key.encode cs) := by
      rw [Range.slice_upTo (by rw [List.length_append]; omega), List.take_left]
    rw [Nat.zero_add] at hlast
    rw [pack, if_pos hend]
    simp only [List.length_nil, List.nil_append] at hwrite
    simp only [hwrite, hlast, hslice]
    rfl
  · have hroom : 0 + (Key.encode cs).length ≤
        (List.replicate (Key.room cs) (0 : UInt8)).length := by
      rwa [List.length_replicate, Nat.zero_add]
    have hpast : indexLimit ≤ 0 + (Key.encode cs).length := by
      rw [Nat.zero_add]
      exact Nat.not_lt.mp hend
    obtain ⟨buf', hwrite⟩ := writeAll_overflow cs (BigEndian.limit_pos 8) hroom hpast
    rw [pack, if_neg hend]
    simp only [hwrite]
    rfl

/-- A single encoding is far shorter than an index can say. -/
theorem pack_singleton (c : Component) : pack [c] = .ok ([c.encode.length], c.encode) := by
  have hlen : (Key.encode [c]).length < indexLimit := by
    have hle := Key.length_encode_le_room [c]
    have hroom : Key.room [c] ≤ 9 := by
      change c.width.maxLength + 0 ≤ 9
      cases c.width <;> decide
    exact Nat.lt_of_le_of_lt (Nat.le_trans hle hroom) (by decide)
  rw [pack_eq, if_pos hlen, Key.encode_singleton, Key.ends, Key.ends, Nat.zero_add]

end Buffer

/-- A buffer that is written to is given the encoding at once. -/
theorem Stream.Output.sorted_eq_put {β : Type} [BufMut β] (c : Component) :
    (sorted c : Output β Unit) = BufMut.put c.encode := by
  have hslice : (Range.upTo (Stage.holding c.value.encode
      (c.width.bytes - c.value.lead.count)).used).slice (Stage.holding c.value.encode
      (c.width.bytes - c.value.lead.count)).cells = .ok c.value.encode :=
    Stage.written_holding c.value.encode _
  rw [sorted, c.value.stage_eq]
  funext b
  rw [checked_bind_ok, bytes, hslice, checked_bind_ok]
  rfl

namespace Transfer

variable {κ ε : Type} [Consumer κ ε]

/-- A consumer is handed the encoding at once, and what it says to that is the answer. -/
theorem encode_eq_push (c : Component) (k : κ) :
    encode c k = (Consumer.push c.encode).adaptExcept EncodeError.refused k := by
  rw [encode, c.value.stagedEncode_eq, checked_bind_ok]
  rfl

end Transfer

end SortKey
