import SortKey.Proofs.Amendments

/-!
# Programs that patch what they wrote

A program appends items and goes back to some of its 32-bit fields. The buffer is at all times the
bytes it started with and the items so far, as patched so far. A patch keeps the length of its field
and touches no other, so what is read back in the end is every item as the last patch left it.
-/

namespace SortKey.Stream

namespace WriteStep

/-- What a step appends, a byte array as a whole. -/
def item : WriteStep → Option Item
  | offset => none
  | field f => some (.field f)
  | bytes src _ => some (.bytes src)
  | patch _ _ => none

def width : WriteStep → Nat
  | offset => 0
  | field f => f.width
  | bytes src _ => src.length
  | patch _ _ => 0

/-- The value that a step patches in at an offset. -/
def patchAt (start : Nat) : WriteStep → Option Int32
  | patch o x => if o = start then some x else none
  | _ => none

/-- What a step answers where the buffer has a given length. -/
def answer (length : Nat) : WriteStep → Option Nat
  | offset => some length
  | _ => none

/-- A byte array is appended as a whole, not a range of it. -/
def Whole : WriteStep → Prop
  | bytes _ r => r = {}
  | _ => True

end WriteStep

def lastPatch (start : Nat) (steps : List WriteStep) : Option Int32 :=
  (steps.filterMap (WriteStep.patchAt start)).getLast?

/-- What later steps make of an item at an offset. Only 32-bit fields are patched. -/
def Item.settle (start : Nat) (steps : List WriteStep) : Item → Item
  | field (.int32 i) => field (.int32 ((lastPatch start steps).getD i))
  | it => it

def settled (steps : List WriteStep) : Nat → List Item → List Item
  | _, [] => []
  | start, it :: its => it.settle start steps :: settled steps (start + it.width) its

def appended (steps : List WriteStep) : List Item := steps.filterMap WriteStep.item

/-- What a program appends from an offset on, as its own patches leave it. -/
def contents : Nat → List WriteStep → List Item
  | _, [] => []
  | start, step :: steps =>
      settled steps start step.item.toList ++ contents (start + step.width) steps

/-- The answers of a program, of which only those to the question for the offset say anything. -/
def answers : Nat → List WriteStep → List (Option Nat)
  | _, [] => []
  | start, step :: steps => step.answer start :: answers (start + step.width) steps

/-- A 32-bit field stands at the offset `target` of items that begin at another. -/
inductive SlotAt (target : Nat) : Nat → List Item → Prop
  | here (i : Int32) (its : List Item) : SlotAt target target (.field (.int32 i) :: its)
  | there {start : Nat} (it : Item) {its : List Item} (h : SlotAt target (start + it.width) its) :
      SlotAt target start (it :: its)

namespace Item

@[simp] theorem width_settle (it : Item) (start : Nat) (steps : List WriteStep) :
    (it.settle start steps).width = it.width := by
  cases it with
  | field f => cases f <;> rfl
  | bytes src => rfl

theorem settle_nil (it : Item) (start : Nat) : it.settle start [] = it := by
  cases it with
  | field f => cases f <;> rfl
  | bytes src => rfl

theorem settle_cons (it : Item) (start : Nat) (step : WriteStep) (steps : List WriteStep) :
    it.settle start (step :: steps) = (it.settle start [step]).settle start steps := by
  cases it with
  | field f =>
      cases f with
      | int32 i =>
          simp only [settle, lastPatch]
          cases hstep : step.patchAt start with
          | none => simp [hstep]
          | some x => simp [hstep, List.getLast?_cons]
      | _ => rfl
  | bytes src => rfl

end Item

theorem settled_nil (start : Nat) (its : List Item) : settled [] start its = its := by
  induction its generalizing start with
  | nil => rfl
  | cons it its ih => rw [settled, it.settle_nil, ih]

theorem settled_cons (step : WriteStep) (steps : List WriteStep) (start : Nat) (its : List Item) :
    settled (step :: steps) start its = settled steps start (settled [step] start its) := by
  induction its generalizing start with
  | nil => rfl
  | cons it its ih =>
      rw [settled, it.settle_cons, ih, settled, settled, Item.width_settle]

theorem settled_append (steps : List WriteStep) (start : Nat) (its its' : List Item) :
    settled steps start (its ++ its') =
      settled steps start its ++ settled steps (start + (layout its).length) its' := by
  induction its generalizing start with
  | nil => rfl
  | cons it its ih =>
      rw [List.cons_append, settled, ih, settled, layout_cons, List.length_append,
        Item.length_encode, Nat.add_assoc]
      rfl

theorem length_layout_settled (steps : List WriteStep) (start : Nat) (its : List Item) :
    (layout (settled steps start its)).length = (layout its).length := by
  induction its generalizing start with
  | nil => rfl
  | cons it its ih =>
      rw [settled, layout_cons, layout_cons, List.length_append, List.length_append, ih,
        Item.length_encode, Item.length_encode, Item.width_settle]

namespace SlotAt

variable {target start : Nat} {its : List Item}

theorem start_le (h : SlotAt target start its) : start ≤ target := by
  induction h with
  | here i its => exact Nat.le_refl _
  | there it h ih => exact Nat.le_trans (Nat.le_add_right _ _) ih

theorem middle (start : Nat) (its : List Item) (i : Int32) (rest : List Item) :
    SlotAt (start + (layout its).length) start (its ++ .field (.int32 i) :: rest) := by
  induction its generalizing start with
  | nil => exact .here i rest
  | cons it its ih =>
      rw [layout_cons, List.length_append, it.length_encode, ← Nat.add_assoc]
      exact .there it (ih (start + it.width))

/-- Patches do not move the fields. -/
theorem settled (steps : List WriteStep) {rest : List Item}
    (h : SlotAt target start (its ++ rest)) :
    SlotAt target start (Stream.settled steps start its ++ rest) := by
  induction its generalizing start with
  | nil => exact h
  | cons it its ih =>
      rw [Stream.settled, List.cons_append]
      cases h with
      | here i _ => exact .here _ _
      | there _ h =>
          apply SlotAt.there
          rw [Item.width_settle]
          exact ih h

end SlotAt

theorem Item.settle_of_patchAt_eq_none {step : WriteStep} {start : Nat}
    (h : step.patchAt start = none) (it : Item) : it.settle start [step] = it := by
  cases it with
  | field f =>
      cases f with
      | int32 i => simp [settle, lastPatch, h]
      | _ => rfl
  | bytes src => rfl

theorem Item.settle_patch_of_slot {target start : Nat} {it : Item} {its : List Item} {x : Int32}
    (h : SlotAt target (start + it.width) its) : it.settle start [.patch target x] = it := by
  have hle := h.start_le
  cases it with
  | field f =>
      cases f with
      | int32 i =>
          have hne : target ≠ start := by
            simp only [width, Field.width] at hle
            omega
          have hpatch : (WriteStep.patch target x).patchAt start = none := if_neg hne
          exact settle_of_patchAt_eq_none hpatch _
      | _ => rfl
  | bytes src => rfl

theorem Item.settle_patch_self (start : Nat) (x i : Int32) :
    (field (.int32 i)).settle start [.patch start x] = field (.int32 x) := by
  simp [settle, lastPatch, WriteStep.patchAt]

/-- A step that patches nothing from an offset on leaves the items there alone. -/
theorem settled_of_patchAt_eq_none {step : WriteStep} {start : Nat}
    (h : ∀ s, start ≤ s → step.patchAt s = none) (its : List Item) :
    settled [step] start its = its := by
  induction its generalizing start with
  | nil => rfl
  | cons it its ih =>
      have hbehind : ∀ s, start + it.width ≤ s → step.patchAt s = none := by
        intro s hs
        exact h s (Nat.le_trans (Nat.le_add_right _ _) hs)
      rw [settled, it.settle_of_patchAt_eq_none (h start (Nat.le_refl _)), ih hbehind]

namespace Output

theorem patch_gap (pre : Bytes) {gap : Bytes} (post : Bytes) (x : Int32) (h : gap.length = 4)
    (hend : pre.length + 4 < indexLimit) :
    patch pre.length x (pre ++ gap ++ post) =
      .ok () (pre ++ BigEndian.digits 4 x.toBitVec.toNat ++ post) := by
  have hroom : pre.length + 4 ≤ (pre ++ gap ++ post).length := by
    simp only [List.length_append]
    omega
  have hdigits : gap.length = (BigEndian.digits 4 x.toBitVec.toNat).length := by
    rw [h, BigEndian.length_digits]
  rw [patch_ok x hroom hend]
  exact congrArg _ (Span.splice_gap hdigits)

/-- A patch changes its own field and no other. -/
theorem patch_layout {target start : Nat} {its : List Item} (x : Int32)
    (h : SlotAt target start its) {pre : Bytes} (hpre : pre.length = start)
    (hsize : (pre ++ layout its).length < indexLimit) :
    patch target x (pre ++ layout its) =
      .ok () (pre ++ layout (settled [.patch target x] start its)) := by
  induction h generalizing pre with
  | here i its =>
      have hbehind : ∀ s, target + (Item.field (.int32 i)).width ≤ s →
          (WriteStep.patch target x).patchAt s = none := by
        intro s hs
        simp only [Item.width, Field.width] at hs
        exact if_neg (by omega)
      have hend : pre.length + 4 < indexLimit := by
        rw [layout_cons, List.length_append, List.length_append, Item.length_encode] at hsize
        simp only [Item.width, Field.width] at hsize
        omega
      have hgap := patch_gap pre (layout its) x (Field.length_bytes (.int32 i)) hend
      rw [hpre] at hgap
      rw [settled, Item.settle_patch_self, settled_of_patchAt_eq_none hbehind, layout_cons,
        layout_cons, ← List.append_assoc, ← List.append_assoc]
      exact hgap
  | @there start it its h ih =>
      have hlen : (pre ++ it.encode).length = start + it.width := by
        rw [List.length_append, hpre, it.length_encode]
      rw [layout_cons, ← List.append_assoc] at hsize
      have hrun := ih hlen hsize
      rw [settled, Item.settle_patch_of_slot h, layout_cons, layout_cons, ← List.append_assoc,
        ← List.append_assoc, hrun]

end Output

namespace WriteStep

@[simp] theorem length_layout_item (step : WriteStep) :
    (layout step.item.toList).length = step.width := by
  cases step with
  | offset => rfl
  | field f => simp [item, width, Item.encode]
  | bytes src r => simp [item, width, Item.encode]
  | patch o x => rfl

variable {step : WriteStep} {pre : Bytes} {its : List Item}

/-- A step patches the items that are there or appends one behind them. -/
theorem perform_layout (hwhole : step.Whole)
    (hslot : ∀ target x, step = .patch target x → SlotAt target pre.length its)
    (hsize : (pre ++ layout its).length < indexLimit) :
    step.perform (pre ++ layout its) = .ok (step.answer (pre ++ layout its).length)
      (pre ++ layout (settled [step] pre.length its ++ step.item.toList)) := by
  rw [layout_append, ← List.append_assoc]
  cases step with
  | offset =>
      rw [settled_of_patchAt_eq_none fun _ _ => rfl]
      exact congrArg (EStateM.Result.ok _) (List.append_nil _).symm
  | field f =>
      rw [settled_of_patchAt_eq_none fun _ _ => rfl, perform, bind_ok (Output.field_run f _)]
      exact congrArg _ (congrArg _ (List.append_nil _).symm)
  | bytes src r =>
      have hall : r = {} := hwhole
      have hput := Output.bytes_ok (Range.slice_all src) (pre ++ layout its)
      rw [settled_of_patchAt_eq_none fun _ _ => rfl, hall, perform, bind_ok hput]
      exact congrArg _ (congrArg _ (List.append_nil _).symm)
  | patch target x =>
      rw [perform, bind_ok (Output.patch_layout x (hslot target x rfl) rfl hsize)]
      exact congrArg _ (List.append_nil _).symm

end WriteStep

theorem appended_cons (step : WriteStep) (steps : List WriteStep) :
    appended (step :: steps) = step.item.toList ++ appended steps := by
  cases step <;> rfl

theorem appended_append (steps steps' : List WriteStep) :
    appended (steps ++ steps') = appended steps ++ appended steps' := List.filterMap_append

/-- The buffer of a program is at all times what it began with and the items so far. -/
theorem mapM_perform_layout (pre : Bytes) {steps : List WriteStep} (its : List Item)
    (hwhole : ∀ step ∈ steps, step.Whole)
    (hslots : ∀ before target x after, steps = before ++ .patch target x :: after →
      SlotAt target pre.length (its ++ appended before))
    (hsize : (pre ++ layout its).length + (layout (appended steps)).length < indexLimit) :
    steps.mapM WriteStep.perform (pre ++ layout its) =
      .ok (answers (pre ++ layout its).length steps)
        (pre ++ layout (settled steps pre.length its ++
          contents (pre ++ layout its).length steps)) := by
  induction steps generalizing its with
  | nil =>
      rw [settled_nil, contents, List.append_nil]
      rfl
  | cons step steps ih =>
      -- The step turns the items so far into others, with the same places, and may add one.
      obtain ⟨hhead, htail⟩ := List.forall_mem_cons.mp hwhole
      have hslot : ∀ target x, step = .patch target x → SlotAt target pre.length its := by
        intro target x h
        have hat := hslots [] target x steps (by rw [h, List.nil_append])
        rwa [appended, List.filterMap_nil, List.append_nil] at hat
      have hslotsTail : ∀ before target x after, steps = before ++ .patch target x :: after →
          SlotAt target pre.length
            (settled [step] pre.length its ++ step.item.toList ++ appended before) := by
        intro before target x after h
        have hat := hslots (step :: before) target x after (by rw [h, List.cons_append])
        rw [appended_cons] at hat
        rw [List.append_assoc]
        exact hat.settled [step]
      have hlen : (pre ++ layout (settled [step] pre.length its ++ step.item.toList)).length =
          (pre ++ layout its).length + step.width := by
        simp only [layout_append, List.length_append, length_layout_settled,
          WriteStep.length_layout_item, Nat.add_assoc]
      have hnow : (pre ++ layout its).length < indexLimit :=
        Nat.lt_of_le_of_lt (Nat.le_add_right _ _) hsize
      have hlater : (pre ++ layout (settled [step] pre.length its ++ step.item.toList)).length +
          (layout (appended steps)).length < indexLimit := by
        rwa [hlen, Nat.add_assoc, ← WriteStep.length_layout_item, ← List.length_append,
          ← layout_append, ← appended_cons]
      have hitems : settled steps pre.length (settled [step] pre.length its ++ step.item.toList) =
          settled (step :: steps) pre.length its ++
            settled steps (pre ++ layout its).length step.item.toList := by
        rw [settled_append, length_layout_settled, ← settled_cons, List.length_append]
      rw [List.mapM_cons, bind_ok (WriteStep.perform_layout hhead hslot hnow),
        bind_ok (ih _ htail hslotsTail hlater), hlen, hitems, List.append_assoc]
      rfl

theorem Output.length_of_patch {target : Nat} {x : Int32} {buf buf' : Bytes}
    (h : patch target x buf = .ok () buf') : buf'.length = buf.length := by
  obtain ⟨hroom, hend⟩ : target + 4 ≤ buf.length ∧ target + 4 < indexLimit := fits_of_patch h
  rw [patch_ok x hroom hend] at h
  injection h with _ hbuf
  rw [← hbuf]
  exact Span.length_splice (by rw [BigEndian.length_digits]) hroom

theorem WriteStep.length_of_perform {step : WriteStep} {a : Option Nat} {buf buf' : Bytes}
    (hwhole : step.Whole) (h : step.perform buf = .ok a buf') :
    buf'.length = buf.length + step.width := by
  cases step with
  | offset =>
      injection h with _ hbuf
      rw [← hbuf]
      rfl
  | field f =>
      rw [perform, bind_ok (Output.field_run f buf)] at h
      injection h with _ hbuf
      rw [← hbuf, List.length_append, Field.length_bytes]
      rfl
  | bytes src r =>
      have hall : r = {} := hwhole
      rw [perform, hall, bind_ok (Output.bytes_ok (Range.slice_all src) buf)] at h
      injection h with _ hbuf
      rw [← hbuf, List.length_append]
      rfl
  | patch target x =>
      obtain ⟨⟨⟩, s, hpatch, hreturn⟩ := exists_of_bind_eq_ok h
      injection hreturn with _ hbuf
      rw [hbuf] at hpatch
      exact Output.length_of_patch hpatch

/-- What a program leaves is as long as what it found and all that it appends. -/
theorem length_of_mapM_perform {steps : List WriteStep} {as : List (Option Nat)} {buf buf' : Bytes}
    (hwhole : ∀ step ∈ steps, step.Whole)
    (h : steps.mapM WriteStep.perform buf = .ok as buf') :
    buf'.length = buf.length + (layout (appended steps)).length := by
  induction steps generalizing as buf with
  | nil =>
      injection h with _ hbuf
      rw [← hbuf]
      rfl
  | cons step steps ih =>
      obtain ⟨hhead, htail⟩ := List.forall_mem_cons.mp hwhole
      rw [List.mapM_cons] at h
      obtain ⟨a, s, hstep, h⟩ := exists_of_bind_eq_ok h
      obtain ⟨as', s', hsteps, hreturn⟩ := exists_of_bind_eq_ok h
      injection hreturn with _ hbuf
      rw [hbuf] at hsteps
      rw [ih htail hsteps, WriteStep.length_of_perform hhead hstep, appended_cons, layout_append,
        List.length_append, WriteStep.length_layout_item, Nat.add_assoc]

section Backpatching

open BufMut

variable {γ : Type} [BufMut γ] {init : γ} {steps : List WriteStep}

/-- A program whose patches go to 32-bit fields that it has written, each at the offset that it was
given right before. -/
structure Backpatching (init : γ) (steps : List WriteStep) : Prop where
  whole : ∀ step ∈ steps, step.Whole
  aimed : ∀ before target x after, steps = before ++ .patch target x :: after →
    ∃ front i back as b, before = front ++ .field (.int32 i) :: back ∧
      front.mapM WriteStep.perform init = .ok as b ∧ Output.offset b = .ok target b

variable [LawfulBufMut γ]

theorem Backpatching.slotAt (h : Backpatching init steps) {before : List WriteStep} {target : Nat}
    {x : Int32} {after : List WriteStep} (hsteps : steps = before ++ .patch target x :: after) :
    SlotAt target (content init).length (appended before) := by
  obtain ⟨front, i, back, as, b, rfl, hrun, hoffset⟩ := h.aimed _ _ _ _ hsteps
  have hwhole : ∀ step ∈ front, step.Whole := by
    intro step hmem
    apply h.whole step
    rw [hsteps]
    exact List.mem_append_left _ (List.mem_append_left _ hmem)
  have hheld := (SeenAs.mapM WriteStep.seenAs_perform front).ok hrun
  have htarget : (content b).length = target := by
    injection hoffset
  rw [← htarget, length_of_mapM_perform hwhole hheld, appended_append, appended_cons]
  exact .middle (content init).length (appended front) i (appended back)

/-- A program that patches its own fields runs through, its questions for the offset are answered by
the bytes so far, and what it appended is read back as the last patches left it, to the end. No
buffer holds more bytes than an index can count. -/
theorem programs_read_back (h : Backpatching init steps)
    (hsize : (content init).length + (layout (appended steps)).length < indexLimit) :
    ∃ out : γ, steps.mapM WriteStep.perform init =
        .ok (answers (content init).length steps) out ∧
      content init <+: content out ∧
      ∀ (β : Type) [Buf β] [LawfulBuf β] (b : β) (reads : List ReadStep),
        LawfulBuf.view b = (content out).drop (content init).length →
        List.Forall₂ Item.ReadBy (contents (content init).length steps) reads →
        (traceAll ReadStep.run (reads ++ [.remaining]) b).map Prod.fst =
          (contents (content init).length steps).map Item.reply ++
            [.value (.ok (.remaining 0))] := by
  -- The layout is that of the content, which the buffer follows.
  have hlayout := mapM_perform_layout (content init) [] h.whole
    fun _ _ _ _ hsteps => h.slotAt hsteps
  rw [layout_nil, List.append_nil] at hlayout
  obtain ⟨out, hrun, hheld⟩ :=
    (SeenAs.mapM WriteStep.seenAs_perform steps).exists_ok (hlayout hsize)
  refine ⟨out, hrun, ?_, ?_⟩
  · rw [hheld]
    exact List.prefix_append _ _
  · intro β _ _ b reads hview hreads
    rw [hheld, List.drop_left, settled, List.nil_append] at hview
    have hgoes := hreads.imp fun _ _ => Item.ReadBy.goesWith
    obtain ⟨hreplies, hview'⟩ := traceAll_goesWith (r := []) hgoes (by rw [hview, List.append_nil])
    have hleft : Buf.remaining (after ReadStep.run reads b) = 0 := by
      rw [LawfulBuf.remaining_eq, hview', List.length_nil]
    rw [traceAll_append, List.map_append, hreplies, ← hleft]
    rfl

end Backpatching

/-- A length between a sorted integer and a byte array, first guessed and then corrected twice. -/
theorem length_patched_twice :
    let steps := [.field (.sorted ⟨.w32, ⟨200⟩⟩), .offset, .field (.int32 0), .bytes [7] {},
      .patch 3 9, .patch 3 1]
    ∃ out : Bytes, steps.mapM WriteStep.perform ([0xAA] : Bytes) =
        .ok [none, some 3, none, none, none, none] out ∧
      [0xAA] <+: out ∧
      (traceAll ReadStep.run [.field (.sorted .w32), .field .int32, .fill [0] {}, .remaining]
        (out.drop 1)).map Prod.fst =
          [.value (.ok (.sorted ⟨.w32, ⟨200⟩⟩)), .value (.ok (.int32 1)), .filled (.ok ()) [7],
            .value (.ok (.remaining 0))] := by
  intro steps
  have h : Backpatching ([0xAA] : Bytes) steps := by
    refine ⟨by simp [steps, WriteStep.Whole], ?_⟩
    intro before target x after hsteps
    have hfront : [.field (.sorted ⟨.w32, ⟨200⟩⟩), .offset].mapM WriteStep.perform
        ([0xAA] : Bytes) = .ok [none, some 3] [0xAA, 0xF8, 0x4F] := rfl
    simp only [steps, List.cons_eq_append_iff, List.cons.injEq, reduceCtorEq, false_and, and_false,
      WriteStep.patch.injEq, List.nil_eq, List.append_eq_nil_iff, exists_const, or_false,
      ↓existsAndEq, true_and, false_or] at hsteps
    obtain ⟨back, rfl, ⟨-, ⟨rfl, -⟩, -⟩ | ⟨-, ⟨rfl, -⟩, -⟩⟩ := hsteps <;>
      exact ⟨_, 0, _, _, _, rfl, hfront, rfl⟩
  obtain ⟨out, hrun, hinit, hread⟩ := programs_read_back h (by decide)
  refine ⟨out, hrun, hinit, hread Bytes (out.drop 1)
    [.field (.sorted .w32), .field .int32, .fill [0] {}] rfl ?_⟩
  exact .cons rfl (.cons rfl (.cons ⟨[0], rfl, rfl⟩ .nil))

end SortKey.Stream
