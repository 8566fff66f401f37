import SortKey.Proofs.Chains

/-!
# Keys that are cut off

Cut anywhere, the bytes of a key are those of the components that fit and some of the next one, too
few to be an encoding. Its first byte alone says so. So every reader returns the components that fit
and then reports that bytes are missing, never a wrong value.
-/

namespace SortKey

namespace Key

/-- The components at the front whose bytes fit into `k`. -/
def fitting (k : Nat) : List Component → List Component
  | [] => []
  | c :: cs => if c.encode.length ≤ k then c :: fitting (k - c.encode.length) cs else []

/-- What the next read lacks where `present` bytes of the first of these components are there. With
none it asks for a lead byte. -/
def shortage (rest : List Component) (present : Nat) : Underflow :=
  match rest with
  | [] => ⟨1, 0⟩
  | c :: _ => if present = 0 then ⟨1, 0⟩ else ⟨c.encode.length, present⟩

/-- What is there of the first of these components is not the whole of it. -/
def Partial (rest : List Component) (cut : Bytes) : Prop :=
  cut = [] ∨ ∃ c rest', rest = c :: rest' ∧ cut.length < c.encode.length ∧
    cut = c.encode.take cut.length

theorem fitting_isPrefix (k : Nat) (cs : List Component) : fitting k cs <+: cs := by
  induction cs generalizing k with
  | nil => exact List.prefix_refl _
  | cons c cs ih =>
      rw [fitting]
      split
      · exact (List.prefix_cons_inj c).mpr (ih _)
      · exact List.nil_prefix

theorem length_encode_fitting_le (k : Nat) (cs : List Component) :
    (encode (fitting k cs)).length ≤ k := by
  induction cs generalizing k with
  | nil => exact Nat.zero_le k
  | cons c cs ih =>
      rw [fitting]
      split
      · have hrest := ih (k - c.encode.length)
        rw [encode_cons, List.length_append]
        omega
      · exact Nat.zero_le k

theorem isPrefix_fitting {k : Nat} {front cs : List Component} (hfront : front <+: cs)
    (hk : (encode front).length ≤ k) : front <+: fitting k cs := by
  induction cs generalizing front k with
  | nil => exact hfront
  | cons c cs ih =>
      cases front with
      | nil => exact List.nil_prefix
      | cons d front =>
          obtain ⟨rfl, htail⟩ := List.cons_prefix_cons.mp hfront
          rw [encode_cons, List.length_append] at hk
          rw [fitting, if_pos (by omega)]
          exact (List.prefix_cons_inj d).mpr (ih htail (by omega))

/-- The bytes before a cut are those of the components that fit and a part of the next one. -/
theorem take_encode (k : Nat) (cs : List Component) :
    ∃ rest cut, cs = fitting k cs ++ rest ∧ (encode cs).take k = encode (fitting k cs) ++ cut ∧
      Partial rest cut := by
  induction cs generalizing k with
  | nil => exact ⟨[], [], rfl, List.take_nil, Or.inl rfl⟩
  | cons c cs ih =>
      by_cases hfit : c.encode.length ≤ k
      · obtain ⟨rest, cut, hcs, htake, hcut⟩ := ih (k - c.encode.length)
        refine ⟨rest, cut, ?_, ?_, hcut⟩
        · rw [fitting, if_pos hfit, List.cons_append, ← hcs]
        · rw [fitting, if_pos hfit, encode_cons, encode_cons, List.take_append,
            List.take_of_length_le hfit, htake, List.append_assoc]
      · have hlt := Nat.not_le.mp hfit
        have hlen : (c.encode.take k).length = k := List.length_take_of_le (Nat.le_of_lt hlt)
        refine ⟨c :: cs, c.encode.take k, ?_, ?_, Or.inr ⟨c, cs, rfl, ?_, ?_⟩⟩
        · rw [fitting, if_neg hfit, List.nil_append]
        · rw [fitting, if_neg hfit, encode_cons, List.take_append_of_le_length (Nat.le_of_lt hlt)]
          rfl
        · rwa [hlen]
        · rw [hlen]

end Key

theorem opening_take_encode {w : Width} {v : Signed w} {n : Nat} (hpos : 0 < n)
    (hlt : n < v.encode.length) : opening w (v.encode.take n) = .cut v.lead n := by
  obtain ⟨m, rfl⟩ := Nat.exists_eq_add_one_of_ne_zero (Nat.ne_of_gt hpos)
  rw [v.length_encode, Signed.encodedLength, Lead.length] at hlt
  have hlen : ((BigEndian.digits v.lead.count (v.lead.magnitude v.toInt)).take m).length = m :=
    List.length_take_of_le (by rw [BigEndian.length_digits]; omega)
  rw [Signed.encode, List.take_succ_cons, opening_cut, v.ofByte_lead, hlen]
  · rw [v.ofByte_lead, Lead.length_le_maxLength_iff]
    exact v.count_lead_le
  · rw [v.ofByte_lead, hlen, Lead.length]
    omega

/-- Part of an encoding opens as one that is cut off. -/
theorem result_opening_cut {w : Width} {rest : List Component} {cut : Bytes}
    (hcut : Key.Partial rest cut) (hw : ∀ c ∈ rest.head?, c.width = w) :
    (opening w cut).result = .error (.underflow (Key.shortage rest cut.length)) := by
  by_cases hnil : cut = []
  · rw [hnil]
    cases rest <;> rfl
  · obtain ⟨c, rest', rfl, hlt, heq⟩ := hcut.resolve_left hnil
    obtain rfl := hw c rfl
    have hpos := List.length_pos_iff.mpr hnil
    have hopen := opening_take_encode hpos hlt
    rw [← Component.encode, ← heq] at hopen
    rw [hopen, Key.shortage, if_neg (Nat.ne_of_gt hpos), Component.encode, c.value.length_encode]
    rfl

/-- Only missing bytes make an underflow. -/
theorem Opening.blank_or_cut {w : Width} {o : Opening w} {u : Underflow}
    (h : o.result = .error (.underflow u)) :
    o = .blank ∧ u = ⟨1, 0⟩ ∨ ∃ l n, o = .cut l n ∧ u = ⟨l.length, n⟩ := by
  cases o with
  | blank =>
      cases h
      exact Or.inl ⟨rfl, rfl⟩
  | wide l => cases h
  | cut l n =>
      cases h
      exact Or.inr ⟨l, n, rfl, rfl⟩
  | whole l v => cases h

theorem Buffer.readAll_of_underflow {w : Width} {buf : Bytes} {offset : Nat} {u : Underflow}
    (h : (opening w (buf.drop offset)).result = .error (.underflow u)) (ws : List Width) :
    Buffer.readAll buf (w :: ws) offset = [(.error (.underflow u), offset)] := by
  have hnext : next w buf offset = .error (.underflow u) offset := by
    rw [next, read_eq, h]
  rw [readAll, trace, outcome_error (map_error hnext _)]
  rfl

theorem Stream.Input.sorted_of_underflow {β : Type} [Buf β] [LawfulBuf β] {w : Width} {b : β}
    {u : Underflow} (h : (opening w (LawfulBuf.view b)).result = .error (.underflow u)) :
    Stream.Input.sorted w b = .error (.underflow u) b := by
  rw [sorted_run]
  rcases Opening.blank_or_cut h with ⟨hopen, rfl⟩ | ⟨l, n, hopen, rfl⟩
  · rw [hopen]
  · rw [hopen]

namespace Transfer

variable {π φ ε : Type} [Producer π φ ε] [LawfulProducer π φ ε] {p : π}

open LawfulProducer

/-- A producer that ends within an encoding is left with nothing. -/
theorem DecodeStep.perform_of_underflow {step : DecodeStep} {u : Underflow}
    (h : (opening step.width (unread p)).result = .error (.underflow u)) :
    ∃ p', step.perform p = .error (.ended (ending p)) p' ∧ unread p' = [] := by
  obtain ⟨p', hrun⟩ := decode_run step.width p
  rcases Opening.blank_or_cut h with ⟨hopen, -⟩ | ⟨l, n, hopen, -⟩
  · rw [hopen] at hrun
    exact ⟨p', perform_of_decode_error hrun.1, hrun.2⟩
  · rw [hopen] at hrun
    exact ⟨p', perform_of_decode_error hrun.1, hrun.2⟩

end Transfer

open Transfer

/-- A cut key yields the longest front part of its components that fits, and then an underflow that
names the length of the encoding that was cut and how much of it is there, whatever reads it. -/
theorem cut_keys_underflow (cs : List Component) (k : Nat) :
    let done := Key.fitting k cs
    let bytes := (Key.encode cs).take k
    let cut := bytes.drop (Key.encode done).length
    let u := Key.shortage (cs.drop done.length) cut.length
    (done <+: cs ∧ (Key.encode done).length ≤ k ∧
      ∀ front, front <+: cs → (Key.encode front).length ≤ k → front <+: done) ∧
    ∀ w, (∀ c ∈ cs[done.length]?, c.width = w) →
      (∀ ws, Buffer.readAll bytes (done.map Component.width ++ w :: ws) 0 =
        (done.map Except.ok).zip (Key.ends 0 done) ++
          [(.error (.underflow u), (Key.encode done).length)]) ∧
      (∀ (β : Type) [Buf β] [LawfulBuf β] (b : β), LawfulBuf.view b = bytes →
        ∃ b', (done.map Component.width).mapM Stream.Input.sorted b = .ok done b' ∧
          LawfulBuf.view b' = cut ∧ Stream.Input.sorted w b' = .error (.underflow u) b') ∧
      (∀ (π φ ε : Type) [Producer π φ ε] [LawfulProducer π φ ε] (p : π)
        (steps : List DecodeStep) (last : DecodeStep),
        LawfulProducer.unread p = bytes → steps.map DecodeStep.width = done.map Component.width →
        last.width = w →
        ∃ p' p'', steps.mapM DecodeStep.perform p = .ok done p' ∧
          LawfulProducer.unread p' = cut ∧
          last.perform p' = .error (.ended (LawfulProducer.ending p)) p'' ∧
          LawfulProducer.unread p'' = []) := by
  intro done bytes cut u
  refine ⟨⟨Key.fitting_isPrefix k cs, Key.length_encode_fitting_le k cs,
    fun front => Key.isPrefix_fitting⟩, ?_⟩
  intro w hw
  obtain ⟨rest, cut', hcs, hbytes, hcut⟩ := Key.take_encode k cs
  have hrest : cs.drop done.length = rest :=
    (congrArg (List.drop done.length) hcs).trans List.drop_left
  have hcut' : cut = cut' :=
    (congrArg (List.drop (Key.encode done).length) hbytes).trans List.drop_left
  have hu : u = Key.shortage rest cut'.length := by rw [← hrest, ← hcut']
  rw [← List.head?_drop, hrest] at hw
  have hopen := result_opening_cut hcut hw
  rw [← hu] at hopen
  rw [hcut']
  refine ⟨?_, ?_, ?_⟩
  · intro ws
    have hread := Buffer.readAll_encode_append done (w :: ws) [] cut'
    rw [List.nil_append, List.length_nil, Nat.zero_add] at hread
    rw [show bytes = Key.encode done ++ cut' from hbytes, hread]
    exact congrArg _ (Buffer.readAll_of_underflow (by rwa [List.drop_left]) ws)
  · intro β _ _ b hview
    obtain ⟨b', hrun, hview'⟩ := Stream.Input.mapM_sorted done (hview.trans hbytes)
    exact ⟨b', hrun, hview', Stream.Input.sorted_of_underflow (by rwa [hview'])⟩
  · rintro π φ ε _ _ p steps last hunread hsteps rfl
    obtain ⟨p', hrun, hunread', hend⟩ := DecodeStep.mapM_perform hsteps (hunread.trans hbytes)
    rw [← hunread'] at hopen
    obtain ⟨p'', hlast, hnil⟩ := DecodeStep.perform_of_underflow hopen
    exact ⟨p', p'', hrun, hunread', by rw [hlast, hend], hnil⟩

/-- Of the second value only the lead byte is there, and it announces three more. -/
theorem second_value_cut :
    Buffer.readAll [0xF8, 0x4F, 0x05] [.w32, .w64] 0 =
        [(.ok ⟨.w32, ⟨200⟩⟩, 2), (.error (.underflow ⟨4, 1⟩), 2)] ∧
      ∃ p' p'', [DecodeStep.mk .w32 true].mapM DecodeStep.perform
          (⟨[0xF8, 0x4F, 0x05], .final 0⟩ : Source) = .ok [⟨.w32, ⟨200⟩⟩] p' ∧
        LawfulProducer.unread p' = [0x05] ∧
        (DecodeStep.mk .w64 true).perform p' = .error (.ended (.final 0)) p'' ∧
        LawfulProducer.unread p'' = [] := by
  obtain ⟨-, h⟩ := cut_keys_underflow [⟨.w32, ⟨200⟩⟩, ⟨.w64, .ofInt .w64 (-70000)⟩] 3
  obtain ⟨hread, -, hdecode⟩ := h .w64 (by decide)
  exact ⟨hread [], hdecode Source Int Int _ [⟨.w32, true⟩] ⟨.w64, true⟩ rfl rfl rfl⟩

end SortKey
