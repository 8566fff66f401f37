import SortKey.Proofs.Chains
import SortKey.Proofs.Runs
import SortKey.Stream.Session

/-!
# Fields that are written and read

A field is a fixed number of bytes, or as many as its sorted encoding has. Writing puts these bytes
into a buffer, and reading takes the same bytes off the front and returns what was written. A byte
array comes back in any destination of its length.
-/

namespace SortKey.Stream

namespace Field

def bytes : Field → Bytes
  | boolean b => BigEndian.digits 1 b.toNat
  | byte b => BigEndian.digits 1 b.toNat
  | int16 i => BigEndian.digits 2 i.toBitVec.toNat
  | int32 i => BigEndian.digits 4 i.toBitVec.toNat
  | int64 i => BigEndian.digits 8 i.toBitVec.toNat
  | float64 bits => BigEndian.digits 8 bits.toNat
  | sorted c => c.encode

def width : Field → Nat
  | boolean _ => 1
  | byte _ => 1
  | int16 _ => 2
  | int32 _ => 4
  | int64 _ => 8
  | float64 _ => 8
  | sorted c => c.value.encodedLength

/-- What reading a field returns; a byte is read as a signed number. -/
def reading : Field → Reading
  | boolean b => .boolean b
  | byte b => .byte b.toInt8
  | int16 i => .int16 i
  | int32 i => .int32 i
  | int64 i => .int64 i
  | float64 bits => .float64 bits
  | sorted c => .sorted c

@[simp] theorem length_bytes (f : Field) : f.bytes.length = f.width := by
  cases f with
  | sorted c => exact c.value.length_encode
  | _ => exact BigEndian.length_digits _ _

end Field

theorem Output.field_eq_put {γ : Type} [BufMut γ] (f : Field) :
    (field f : Output γ Unit) = BufMut.put f.bytes := by
  cases f with
  | sorted c => exact sorted_eq_put c
  | _ => rfl

theorem Output.field_run (f : Field) (buf : Bytes) : field f buf = .ok () (buf ++ f.bytes) := by
  rw [field_eq_put]
  rfl

namespace Input

variable {β : Type} [Buf β] [LawfulBuf β] {b : β} {r : Bytes}

open LawfulBuf

theorem next_append {bs : Bytes} (h : view b = bs ++ r) :
    ∃ b', next bs.length b = .ok bs b' ∧ view b' = r := by
  have hle : bs.length ≤ (view b).length := by
    rw [h, List.length_append]
    exact Nat.le_add_right _ _
  have htake := (Buf.take_spec hle).2
  rw [h, List.drop_left] at htake
  refine ⟨(Buf.take bs.length b).2, ?_, htake⟩
  rw [next_ok hle, h, List.take_left]

/-- A number that fits its digits is read back, and so is whatever it is read as. -/
theorem natural_digits_append {γ : Type} {n m : Nat} (f : Nat → γ) (hm : m < BigEndian.limit n)
    (h : view b = BigEndian.digits n m ++ r) :
    ∃ b', (do return f (← natural n) : Input β γ) b = .ok (f m) b' ∧ view b' = r := by
  obtain ⟨b', hnext, hview⟩ := next_append h
  have hnatural : natural n b = .ok m b' := by
    rw [BigEndian.length_digits] at hnext
    rw [natural, bind_ok hnext, BigEndian.value_digits, Nat.mod_eq_of_lt hm]
    rfl
  exact ⟨b', bind_ok hnatural _, hview⟩

theorem ofNat_toNat {n : Nat} (word : BitVec n) : BitVec.ofNat n word.toNat = word :=
  (BitVec.ofNat_toNat n word).trans (BitVec.setWidth_eq word)

theorem field_bytes_append {f : Field} (h : view b = f.bytes ++ r) :
    ∃ b', field f.kind b = .ok f.reading b' ∧ view b' = r := by
  cases f with
  | boolean x =>
      obtain ⟨b', hrun, hview⟩ := natural_digits_append (· != 0) (by cases x <;> decide) h
      refine ⟨b', (map_ok hrun _).trans ?_, hview⟩
      cases x <;> rfl
  | byte x =>
      obtain ⟨b', hrun, hview⟩ :=
        natural_digits_append (Int8.ofBitVec <| .ofNat 8 ·) x.toNat_lt h
      refine ⟨b', (map_ok hrun _).trans ?_, hview⟩
      rw [UInt8.toNat, ofNat_toNat]
      rfl
  | int16 i =>
      obtain ⟨b', hrun, hview⟩ :=
        natural_digits_append (Int16.ofBitVec <| .ofNat 16 ·) i.toBitVec.isLt h
      refine ⟨b', (map_ok hrun _).trans ?_, hview⟩
      rw [ofNat_toNat]
      rfl
  | int32 i =>
      obtain ⟨b', hrun, hview⟩ :=
        natural_digits_append (Int32.ofBitVec <| .ofNat 32 ·) i.toBitVec.isLt h
      refine ⟨b', (map_ok hrun _).trans ?_, hview⟩
      rw [ofNat_toNat]
      rfl
  | int64 i =>
      obtain ⟨b', hrun, hview⟩ :=
        natural_digits_append (Int64.ofBitVec <| .ofNat 64 ·) i.toBitVec.isLt h
      refine ⟨b', (map_ok hrun _).trans ?_, hview⟩
      rw [ofNat_toNat]
      rfl
  | float64 bits =>
      obtain ⟨b', hrun, hview⟩ := natural_digits_append UInt64.ofNat bits.toNat_lt h
      refine ⟨b', (map_ok hrun _).trans ?_, hview⟩
      rw [UInt64.ofNat_toNat]
      rfl
  | sorted c =>
      obtain ⟨b', hrun, hview⟩ := sorted_encode_append h
      exact ⟨b', map_ok hrun _, hview⟩

end Input

/-- What a program appends: a field, or the bytes of an array. -/
inductive Item
  | field (f : Field)
  | bytes (src : Bytes)
  deriving DecidableEq, Repr

namespace Item

def encode : Item → Bytes
  | field f => f.bytes
  | bytes src => src

def width : Item → Nat
  | field f => f.width
  | bytes src => src.length

@[simp] theorem length_encode (it : Item) : it.encode.length = it.width := by
  cases it with
  | field f => exact f.length_bytes
  | bytes src => rfl

/-- The reads that go with an item: of the same kind, or into all of a destination as long as the
array. -/
def ReadBy : Item → ReadStep → Prop
  | field f, step => step = .field f.kind
  | bytes src, step => ∃ dst : Bytes, dst.length = src.length ∧ step = .fill dst {}

/-- The same where a range selects all of the destination, however it says so. -/
def GoesWith : Item → ReadStep → Prop
  | field f, .field k => f.kind = k
  | bytes src, .fill dst r => dst.length = src.length ∧ r.span dst.length = .ok ⟨0, dst.length⟩
  | _, _ => False

theorem ReadBy.goesWith {it : Item} {step : ReadStep} (h : it.ReadBy step) : it.GoesWith step := by
  cases it with
  | field f =>
      have hstep : step = .field f.kind := h
      rw [hstep]
      exact rfl
  | bytes src =>
      obtain ⟨dst, hdst, rfl⟩ := h
      exact ⟨hdst, Range.span_all dst.length⟩

def reply : Item → ReadReply
  | field f => .value (.ok f.reading)
  | bytes src => .filled (.ok ()) src

end Item

/-- Items one after another. -/
def layout (its : List Item) : Bytes := its.flatMap Item.encode

@[simp] theorem layout_nil : layout [] = [] := rfl

@[simp] theorem layout_cons (it : Item) (its : List Item) :
    layout (it :: its) = it.encode ++ layout its := List.flatMap_cons

@[simp] theorem layout_append (its its' : List Item) :
    layout (its ++ its') = layout its ++ layout its' := List.flatMap_append

section Reading

variable {β : Type} [Buf β] [LawfulBuf β] {b : β} {r : Bytes}

open LawfulBuf

/-- A range that is filled holds the next bytes of the stream. -/
theorem Input.fill_append {bs dst : Bytes} {range : Range} {span : Span}
    (hspan : range.span dst.length = .ok span) (hlen : span.length = bs.length)
    (h : view b = bs ++ r) :
    ∃ b', Input.fill range (b, dst) = .ok () (b', span.splice dst bs) ∧ view b' = r := by
  obtain ⟨b', hnext, hview⟩ := next_append h
  rw [← hlen] at hnext
  exact ⟨b', fillRange_ok hspan hnext, hview⟩

theorem Input.fill_all_append {src dst : Bytes} {range : Range} (hdst : dst.length = src.length)
    (hspan : range.span dst.length = .ok ⟨0, dst.length⟩) (h : view b = src ++ r) :
    ∃ b', Input.fill range (b, dst) = .ok () (b', src) ∧ view b' = r := by
  obtain ⟨b', hfill, hview⟩ := fill_append hspan hdst h
  refine ⟨b', ?_, hview⟩
  rw [hfill, Span.splice, List.take_zero, List.drop_length, List.nil_append, List.append_nil]

theorem Item.GoesWith.run_append {it : Item} {step : ReadStep} (hstep : it.GoesWith step)
    (h : view b = it.encode ++ r) : ∃ b', step.run b = (it.reply, b') ∧ view b' = r := by
  cases it with
  | field f =>
      cases step with
      | field k =>
          obtain ⟨b', hrun, hview⟩ := Input.field_bytes_append h
          have hkind : f.kind = k := hstep
          refine ⟨b', ?_, hview⟩
          rw [← hkind, ReadStep.run, outcome_ok hrun]
          rfl
      | _ => exact hstep.elim
  | bytes src =>
      cases step with
      | fill dst range =>
          obtain ⟨b', hrun, hview⟩ := Input.fill_all_append hstep.1 hstep.2 h
          refine ⟨b', ?_, hview⟩
          rw [ReadStep.run, outcome_ok hrun]
          rfl
      | _ => exact hstep.elim

/-- Items are read back one after another, and what is left unread is what follows them. -/
theorem traceAll_goesWith {its : List Item} {reads : List ReadStep}
    (hreads : List.Forall₂ Item.GoesWith its reads) (h : view b = layout its ++ r) :
    (traceAll ReadStep.run reads b).map Prod.fst = its.map Item.reply ∧
      view (after ReadStep.run reads b) = r := by
  induction hreads generalizing b with
  | nil => exact ⟨rfl, h⟩
  | cons hstep hreads ih =>
      rw [layout_cons, List.append_assoc] at h
      obtain ⟨b', hrun, hview⟩ := hstep.run_append h
      obtain ⟨hreplies, hafter⟩ := ih hview
      rw [traceAll_cons, after_cons, hrun, List.map_cons, List.map_cons, hreplies]
      exact ⟨rfl, hafter⟩

end Reading

end SortKey.Stream
