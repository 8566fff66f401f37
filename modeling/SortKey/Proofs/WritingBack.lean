import SortKey.Proofs.Amendments
import SortKey.Proofs.Atomicity
import SortKey.Proofs.Grammar
import SortKey.Proofs.Spellings

/-!
# Writing back what was read

Whatever the bytes are, what reads return can be written back, and then takes up no more bytes than
were read. Fields of fixed width come out byte for byte. A truth value comes out as zero or one and
a sorted integer in its shortest form, so these are what differs if anything does. What has been
written back once comes out the same ever after.
-/

namespace SortKey.Stream

/-- The field that a value is written as. A signed byte is written as the unsigned number that is
read back as it. -/
def Reading.field : Reading → Option Field
  | remaining _ => none
  | peeked _ => none
  | boolean b => some (.boolean b)
  | byte i => some (.byte i.toUInt8)
  | int16 i => some (.int16 i)
  | int32 i => some (.int32 i)
  | int64 i => some (.int64 i)
  | float64 bits => some (.float64 bits)
  | sorted c => some (.sorted c)

/-- What an answer holds that can be written back. -/
def ReadReply.item : ReadReply → Option Item
  | value (.ok r) => r.field.map .field
  | value (.error _) => none
  | filled (.ok ()) dst => some (.bytes dst)
  | filled (.error _) _ => none

namespace Item

def write : Item → WriteStep
  | field f => .field f
  | bytes src => .bytes src {}

theorem item_reply (it : Item) : it.reply.item = some it := by
  cases it with
  | field f =>
      cases f with
      | byte x =>
          change some (Item.field (.byte x.toInt8.toUInt8)) = _
          rw [UInt8.toUInt8_toInt8]
      | _ => rfl
  | bytes src => rfl

theorem perform_write (it : Item) (buf : Bytes) :
    it.write.perform buf = .ok none (buf ++ it.encode) := by
  cases it with
  | field f => exact bind_ok (Output.field_run f buf) _
  | bytes src => exact bind_ok (Output.bytes_ok (Range.slice_all src) buf) _

theorem mapM_perform_write (its : List Item) (buf : Bytes) :
    (its.map write).mapM WriteStep.perform buf =
      .ok (its.map fun _ => none) (buf ++ layout its) := by
  induction its generalizing buf with
  | nil =>
      rw [layout_nil, List.append_nil]
      rfl
  | cons it its ih =>
      rw [List.map_cons, List.mapM_cons, bind_ok (perform_write it buf), bind_ok (ih _),
        layout_cons, List.append_assoc]
      rfl

end Item

namespace ReadStep

/-- Reads of a field, or into all of a destination. -/
def Whole : ReadStep → Prop
  | field _ => True
  | fill dst r => r.span dst.length = .ok ⟨0, dst.length⟩
  | _ => False

/-- The bytes are those that a step's answer is written back as. -/
def Plain : ReadStep → Bytes → Prop
  | field .boolean, span => span = [0] ∨ span = [1]
  | field (.sorted w), span => ∃ v : Signed w, v.encode = span
  | _, _ => True

/-- A step answers with what an item holds, which is written back as no more bytes than `span`, and
as `span` itself if it is plain. -/
structure Yields (step : ReadStep) (span : Bytes) (it : Item) : Prop where
  goesWith : it.GoesWith step
  length_le : it.encode.length ≤ span.length
  encode_eq_iff : it.encode = span ↔ step.Plain span

end ReadStep

theorem BigEndian.digits_toNat_ofNat (n m : Nat) :
    BigEndian.digits n (BitVec.ofNat (8 * n) m).toNat = BigEndian.digits n m := by
  rw [BitVec.toNat_ofNat, ← BigEndian.limit_eq_two_pow, BigEndian.digits_mod]

/-- Every byte string of the right length is a field of a kind whose width is fixed, truth values
apart. -/
theorem Field.exists_of_length {k : Kind} {bs : Bytes} (hb : k ≠ .boolean)
    (hs : ∀ w, k ≠ .sorted w) (hk : k.demand [] = .ok bs.length) :
    ∃ f : Field, f.kind = k ∧ f.bytes = bs := by
  have hdigits : ∀ n, .ok n = k.demand [] →
      BigEndian.digits n (BitVec.ofNat (8 * n) (BigEndian.value bs)).toNat = bs := by
    intro n hn
    rw [hk, Except.ok.injEq] at hn
    rw [BigEndian.digits_toNat_ofNat, hn, BigEndian.digits_value]
  cases k with
  | boolean => exact absurd rfl hb
  | sorted w => exact absurd rfl (hs w)
  | byte => exact ⟨.byte (.ofBitVec (.ofNat 8 (BigEndian.value bs))), rfl, hdigits 1 rfl⟩
  | int16 => exact ⟨.int16 (.ofBitVec (.ofNat 16 (BigEndian.value bs))), rfl, hdigits 2 rfl⟩
  | int32 => exact ⟨.int32 (.ofBitVec (.ofNat 32 (BigEndian.value bs))), rfl, hdigits 4 rfl⟩
  | int64 => exact ⟨.int64 (.ofBitVec (.ofNat 64 (BigEndian.value bs))), rfl, hdigits 8 rfl⟩
  | float64 => exact ⟨.float64 (.ofBitVec (.ofNat 64 (BigEndian.value bs))), rfl, hdigits 8 rfl⟩

/-- A truth value is written back as the byte it was read from if that is zero or one. -/
theorem Field.bytes_truth_iff (x : UInt8) :
    (Field.boolean (BigEndian.value [x] != 0)).bytes = [x] ↔ [x] = [0] ∨ [x] = [1] := by
  constructor
  · intro h
    cases htruth : BigEndian.value [x] != 0 with
    | false =>
        rw [htruth] at h
        exact Or.inl h.symm
    | true =>
        rw [htruth] at h
        exact Or.inr h.symm
  · rintro (h | h) <;> rw [h] <;> rfl

section Yielding

variable {β : Type} [Buf β] [LawfulBuf β] {b : β} {step : ReadStep}

open LawfulBuf

namespace ReadStep

theorem demand_eq_length_taken (hconsumes : step.consumes = true)
    (hok : (step.run b).1.fault = none) : step.demand (view b) = .ok (step.taken b).length := by
  obtain ⟨n, hdemand, hle, hsucceeds⟩ := exists_succeeds hok
  rw [takes, if_pos hconsumes] at hsucceeds
  rw [taken_of_succeeds hsucceeds, List.length_take_of_le hle, hdemand]

/-- What is written back as the bytes that a step has taken is what it has read. -/
theorem exists_yields_of_encode_eq {it : Item} (h : it.GoesWith step)
    (hencode : it.encode = step.taken b) (hplain : step.Plain (step.taken b)) :
    ∃ it : Item, (step.run b).1 = it.reply ∧ step.Yields (step.taken b) it := by
  have hview : view b = it.encode ++ view (step.run b).2 := by
    rw [hencode, step.taken_append_view]
  obtain ⟨b', hrun, -⟩ := h.run_append hview
  refine ⟨it, by rw [hrun], h, ?_, iff_of_true hencode hplain⟩
  rw [hencode]

omit [LawfulBuf β] in
theorem run_field {k : Kind} {x : Reading} {b' : β} (h : Input.field k b = .ok x b') :
    (field k).run b = (.value (.ok x), b') := by
  rw [run, outcome_ok h]
  rfl

omit [LawfulBuf β] in
theorem fault_run_field {k : Kind} {e : Fault} {b' : β} (h : Input.field k b = .error e b') :
    ((field k).run b).1.fault = some e := by
  rw [run, outcome_error h]
  rfl

/-- A truth value is read from any byte and written back as zero or one. -/
theorem exists_yields_boolean (hok : ((field .boolean).run b).1.fault = none) :
    ∃ it : Item, ((field .boolean).run b).1 = it.reply ∧
      (field .boolean).Yields ((field .boolean).taken b) it := by
  have hdemand := demand_eq_length_taken rfl hok
  have hsplit := (field .boolean).taken_append_view b
  generalize htaken : (field .boolean).taken b = span at hdemand hsplit ⊢
  injection hdemand with hlen
  obtain ⟨x, rfl⟩ := List.length_eq_one_iff.mp hlen.symm
  obtain ⟨b', hnext, -⟩ := Input.next_append hsplit.symm
  have hrun : Input.field .boolean b = .ok (.boolean (BigEndian.value [x] != 0)) b' :=
    map_ok (map_ok (map_ok hnext BigEndian.value) (· != 0)) Reading.boolean
  refine ⟨.field (.boolean (BigEndian.value [x] != 0)), ?_, rfl, Nat.le_refl 1,
    Field.bytes_truth_iff x⟩
  rw [run_field hrun]
  rfl

theorem exists_opening_eq_whole {w : Width} (hok : ((field (.sorted w)).run b).1.fault = none) :
    ∃ l v, opening w (view b) = .whole l v := by
  have hrun := Input.sorted_run w b
  cases hopen : opening w (view b) with
  | whole l v => exact ⟨l, v, rfl⟩
  | _ =>
      rw [hopen] at hrun
      rw [fault_run_field (k := .sorted w) (map_error hrun Reading.sorted)] at hok
      cases hok

/-- A sorted integer is read from any of its spellings and written back as it is encoded. -/
theorem exists_yields_sorted {w : Width} (hok : ((field (.sorted w)).run b).1.fault = none) :
    ∃ it : Item, ((field (.sorted w)).run b).1 = it.reply ∧
      (field (.sorted w)).Yields ((field (.sorted w)).taken b) it := by
  obtain ⟨l, v, hopen⟩ := exists_opening_eq_whole hok
  obtain ⟨b', hsorted, hview⟩ := Input.sorted_of_opening_eq_whole hopen
  have hstep := run_field (k := .sorted w) (map_ok hsorted Reading.sorted)
  have htaken : (field (.sorted w)).taken b = (view b).take l.length :=
    taken_of_succeeds ⟨hok, by rw [hstep]; exact hview⟩
  refine ⟨.field (.sorted ⟨w, v⟩), by rw [hstep]; rfl, rfl, ?_, ?_⟩
  · rw [htaken]
    exact (Signed.spelling_of_opening hopen).length_le
  · rw [htaken]
    constructor
    · intro h
      exact ⟨v, h⟩
    · rintro ⟨u, hu⟩
      -- The bytes open with whatever they are the encoding of, so that is what has been read.
      have hsplit := List.take_append_drop l.length (view b)
      rw [← hu] at hsplit
      rw [← hsplit, opening_encode_append] at hopen
      cases hopen
      exact hu

theorem exists_yields_fixed {k : Kind} (hb : k ≠ .boolean) (hs : ∀ w, k ≠ .sorted w)
    (hok : ((field k).run b).1.fault = none) :
    ∃ it : Item, ((field k).run b).1 = it.reply ∧
      (field k).Yields ((field k).taken b) it := by
  have hdemand := demand_eq_length_taken rfl hok
  have hplain : (field k).Plain ((field k).taken b) := by
    cases k with
    | boolean => exact absurd rfl hb
    | sorted w => exact absurd rfl (hs w)
    | _ => trivial
  -- Only a sorted integer has to be looked at before it is known how long it is.
  rw [← List.nil_append (view b), demand_append] at hdemand
  · obtain ⟨f, hkind, hbytes⟩ := Field.exists_of_length hb hs hdemand
    have hf : (Item.field f).GoesWith (field k) := hkind
    exact exists_yields_of_encode_eq hf hbytes hplain
  · intro _ w h
    cases h
    exact hs w rfl

/-- Whatever a whole read takes, its answer can be written back. -/
theorem exists_yields (hwhole : step.Whole) (hok : (step.run b).1.fault = none) :
    ∃ it : Item, (step.run b).1 = it.reply ∧ step.Yields (step.taken b) it := by
  cases step with
  | remaining => exact hwhole.elim
  | peek => exact hwhole.elim
  | field k =>
      cases k with
      | boolean => exact exists_yields_boolean hok
      | sorted w => exact exists_yields_sorted hok
      | _ => exact exists_yields_fixed nofun (fun _ => nofun) hok
  | fill dst r =>
      have hspan : r.span dst.length = .ok ⟨0, dst.length⟩ := hwhole
      have hdemand := demand_eq_length_taken rfl hok
      rw [demand, hspan] at hdemand
      injection hdemand with hlen
      have hit : (Item.bytes ((fill dst r).taken b)).GoesWith (fill dst r) := ⟨hlen, hspan⟩
      exact exists_yields_of_encode_eq hit rfl trivial

end ReadStep

/-- The bytes that each step of a run takes off the front. -/
def spans : List ReadStep → β → List Bytes
  | [], _ => []
  | step :: steps, b => step.taken b :: spans steps (step.run b).2

/-- The writes that go with the answers of a run. -/
def writesBack (steps : List ReadStep) (b : β) : List WriteStep :=
  ((traceAll ReadStep.run steps b).map Prod.fst).filterMap fun reply => reply.item.map Item.write

theorem length_spans (steps : List ReadStep) (b : β) : (spans steps b).length = steps.length := by
  induction steps generalizing b with
  | nil => rfl
  | cons step steps ih => rw [spans, List.length_cons, List.length_cons, ih]

theorem flatten_spans (steps : List ReadStep) (b : β) :
    (spans steps b).flatten = consumed steps b := by
  induction steps generalizing b with
  | nil => rfl
  | cons step steps ih => rw [spans, List.flatten_cons, ih, consumed]

omit [LawfulBuf β] in
theorem writesBack_of_replies {steps : List ReadStep} {its : List Item}
    (h : (traceAll ReadStep.run steps b).map Prod.fst = its.map Item.reply) :
    writesBack steps b = its.map Item.write := by
  have hwrite : ∀ it : Item, it.reply.item.map Item.write = some it.write := by
    intro it
    rw [it.item_reply]
    rfl
  rw [writesBack, h, List.filterMap_map]
  simp only [Function.comp_def, hwrite, List.filterMap_eq_map']

/-- An item for each step of a run, one after another. -/
theorem exists_items {steps : List ReadStep} (hwhole : ∀ step ∈ steps, step.Whole)
    (hok : ∀ x ∈ traceAll ReadStep.run steps b, x.1.fault = none) :
    ∃ its : List Item, (traceAll ReadStep.run steps b).map Prod.fst = its.map Item.reply ∧
      List.Forall₂ (fun it x => x.1.Yields x.2 it) its (steps.zip (spans steps b)) := by
  induction steps generalizing b with
  | nil => exact ⟨[], rfl, .nil⟩
  | cons step steps ih =>
      obtain ⟨hhead, htail⟩ := List.forall_mem_cons.mp hwhole
      rw [traceAll_cons, List.forall_mem_cons] at hok
      obtain ⟨it, hreply, hit⟩ := ReadStep.exists_yields hhead hok.1
      obtain ⟨its, hreplies, hits⟩ := ih htail hok.2
      refine ⟨it :: its, ?_, ?_⟩
      · rw [traceAll_cons, List.map_cons, List.map_cons, hreply, hreplies]
      · rw [spans, List.zip_cons_cons]
        exact .cons hit hits

/-- If each of two parts is no longer than its counterpart, they are the same together exactly if
each is the same. -/
theorem append_eq_append_iff_of_length_le {as bs cs ds : Bytes} (h : as.length ≤ cs.length)
    (h' : bs.length ≤ ds.length) : as ++ bs = cs ++ ds ↔ as = cs ∧ bs = ds := by
  constructor
  · intro heq
    have hlen := congrArg List.length heq
    simp only [List.length_append] at hlen
    exact List.append_inj heq (by omega)
  · rintro ⟨rfl, rfl⟩
    rfl

theorem layout_of_yields {its : List Item} {xs : List (ReadStep × Bytes)}
    (h : List.Forall₂ (fun it x => x.1.Yields x.2 it) its xs) :
    (layout its).length ≤ (xs.map Prod.snd).flatten.length ∧
      (layout its = (xs.map Prod.snd).flatten ↔ ∀ x ∈ xs, x.1.Plain x.2) := by
  induction h with
  | nil => simp
  | cons hit hits ih =>
      rw [layout_cons, List.map_cons, List.flatten_cons, List.forall_mem_cons,
        append_eq_append_iff_of_length_le hit.length_le ih.1, hit.encode_eq_iff, ih.2,
        List.length_append, List.length_append]
      exact ⟨Nat.add_le_add hit.length_le ih.1, Iff.rfl⟩

theorem ReadStep.plain_iff {φ ε : Type} (ending : Transfer.Ending φ ε) {span : Bytes} :
    step.Plain span ↔ (step = .field .boolean → span = [0] ∨ span = [1]) ∧
      ∀ w, step = .field (.sorted w) → ∃ v p',
        Transfer.decodeCanonic w (⟨span, ending⟩ : Transfer.Source φ ε) = .ok v p' ∧
          p'.unread = [] := by
  cases step with
  | field k =>
      cases k with
      | boolean => simp [Plain]
      | sorted w =>
          have haccepted := Transfer.decodeCanonic_all_iff (w := w)
            (p := (⟨span, ending⟩ : Transfer.Source φ ε))
          constructor
          · intro h
            refine ⟨nofun, ?_⟩
            rintro w' ⟨⟩
            exact haccepted.mpr h
          · rintro ⟨-, h⟩
            exact haccepted.mp (h w rfl)
      | _ => simp [Plain]
  | _ => simp [Plain]

/-- What whole reads have returned can be written to any empty buffer, as no more bytes than were
consumed, and as the same bytes exactly if each truth value was zero or one and each sorted integer
as short as can be. Wherever these bytes stand, they are read as before and then written by the same
writes. -/
theorem reads_written_back {φ ε : Type} (ending : Transfer.Ending φ ε) {steps : List ReadStep}
    (hwhole : ∀ step ∈ steps, step.Whole)
    (hok : ∀ x ∈ traceAll ReadStep.run steps b, x.1.fault = none) :
    (spans steps b).flatten ++ view (after ReadStep.run steps b) = view b ∧
    (writesBack steps b).length = steps.length ∧
    ∃ out : Bytes,
      (∀ (γ : Type) [BufMut γ] [LawfulBufMut γ] (e : γ), BufMut.content e = [] → ∃ e',
        (writesBack steps b).mapM WriteStep.perform e =
            .ok ((writesBack steps b).map fun _ => none) e' ∧
          BufMut.content e' = out) ∧
      out.length ≤ (spans steps b).flatten.length ∧
      (out = (spans steps b).flatten ↔ ∀ x ∈ steps.zip (spans steps b),
        (x.1 = .field .boolean → x.2 = [0] ∨ x.2 = [1]) ∧
        ∀ w, x.1 = .field (.sorted w) → ∃ v p',
          Transfer.decodeCanonic w (⟨x.2, ending⟩ : Transfer.Source φ ε) = .ok v p' ∧
            p'.unread = []) ∧
      ∀ (γ : Type) [Buf γ] [LawfulBuf γ] (b' : γ) (more : Bytes), view b' = out ++ more →
        (traceAll ReadStep.run steps b').map Prod.fst =
          (traceAll ReadStep.run steps b).map Prod.fst ∧
        (spans steps b').flatten = out ∧
        view (after ReadStep.run steps b') = more ∧
        writesBack steps b' = writesBack steps b := by
  obtain ⟨its, hreplies, hits⟩ := exists_items hwhole hok
  obtain ⟨hlen, hsame⟩ := layout_of_yields hits
  have hzip := length_spans steps b
  have hgoes : List.Forall₂ Item.GoesWith its steps := by
    have := hits.imp fun _ _ h => h.goesWith
    rwa [← List.forall₂_map_right_iff, List.map_fst_zip (Nat.le_of_eq hzip.symm)] at this
  rw [List.map_snd_zip (Nat.le_of_eq hzip)] at hlen hsame
  have hwrites := writesBack_of_replies hreplies
  refine ⟨?_, ?_, layout its, ?_, hlen, ?_, ?_⟩
  · rw [flatten_spans, consumed_append_view]
  · rw [hwrites, List.length_map, hgoes.length_eq]
  · intro γ _ _ e hempty
    have hrun := Item.mapM_perform_write its (BufMut.content e)
    rw [hempty, List.nil_append] at hrun
    rw [hwrites, List.map_map]
    apply (SeenAs.mapM WriteStep.seenAs_perform _).exists_ok
    rw [hempty]
    exact hrun
  · simp only [hsame, ReadStep.plain_iff ending]
  · intro γ _ _ b' more hview
    obtain ⟨hreplies', hafter⟩ := traceAll_goesWith hgoes hview
    have hall := consumed_append_view steps b'
    rw [hafter, hview] at hall
    refine ⟨hreplies'.trans hreplies.symm, ?_, hafter, ?_⟩
    · rw [flatten_spans]
      exact List.append_cancel_right hall
    · rw [hwrites, writesBack_of_replies hreplies']

end Yielding

/-- A truth value that is neither zero nor one and an integer with a redundant digit are written as
they should be. -/
theorem padded_integer_shortened :
    let steps := [ReadStep.field .boolean, .field (.sorted .w32), .field .byte]
    let buf : Bytes := [0x02, 0xF9, 0x00, 0x05, 0xFF]
    let writes := [.field (.boolean true), .field (.sorted ⟨.w32, ⟨126⟩⟩), .field (.byte 0xFF)]
    writesBack steps buf = writes ∧
      ∃ out : Bytes, writes.mapM WriteStep.perform ([] : Bytes) = .ok [none, none, none] out ∧
        out.length ≤ 5 ∧ out ≠ buf ∧ writesBack steps out = writes := by
  intro steps buf writes
  have hwhole : ∀ step ∈ steps, step.Whole := by simp [steps, ReadStep.Whole]
  have hok : ∀ x ∈ traceAll ReadStep.run steps buf, x.1.fault = none := by decide
  have hspans : spans steps buf = [[0x02], [0xF9, 0x00, 0x05], [0xFF]] := by decide
  have hwrites : writesBack steps buf = writes := by decide
  obtain ⟨-, -, out, hwrite, hlen, hsame, hagain⟩ :=
    reads_written_back (.final 0 : Transfer.Ending Int Int) hwhole hok
  obtain ⟨e, hrun, rfl⟩ := hwrite Bytes [] rfl
  rw [hspans] at hlen hsame
  rw [hwrites] at hrun hagain
  refine ⟨hwrites, e, hrun, hlen, ?_, ?_⟩
  · intro h
    have hfirst := (hsame.mp h (.field .boolean, [0x02]) List.mem_cons_self).1 rfl
    exact absurd hfirst (by decide)
  · exact (hagain Bytes e [] (List.append_nil e).symm).2.2.2

end SortKey.Stream
