import Mathlib.Data.List.Chain
import SortKey.Proofs.Cuts
import SortKey.Proofs.Frames

/-!
# Scans of arbitrary bytes

Any byte string divides into frames and a rest that starts with no whole frame. The lead byte alone
says where a frame ends, so there is one such division only, and a scan finds it. A scan that ends
with nothing left has read all bytes as frames in the only way there is; otherwise it ends with what
is missing of the next frame, or with a lead that the width has no room for.
-/

namespace SortKey

/-- A lead byte and exactly the bytes that it announces. -/
def IsFrame : Bytes → Prop
  | [] => False
  | b :: m => m.length = (Lead.ofByte b).count

namespace IsFrame

theorem length_pos {f : Bytes} (h : IsFrame f) : 0 < f.length := by
  cases f with
  | nil => exact h.elim
  | cons b m => exact Nat.succ_pos _

/-- No frame is a front part of another. -/
theorem eq_of_append_eq {f g s t : Bytes} (hf : IsFrame f) (hg : IsFrame g)
    (h : f ++ s = g ++ t) : f = g ∧ s = t := by
  cases f with
  | nil => exact hf.elim
  | cons b m =>
      cases g with
      | nil => exact hg.elim
      | cons c k =>
          rw [List.cons_append, List.cons_append, List.cons.injEq] at h
          obtain ⟨rfl, hrest⟩ := h
          obtain ⟨rfl, rfl⟩ := List.append_inj hrest (hf.trans hg.symm)
          exact ⟨rfl, rfl⟩

theorem length_le_length_flatten {fs : List Bytes} (h : ∀ f ∈ fs, IsFrame f) :
    fs.length ≤ fs.flatten.length := by
  induction fs with
  | nil => exact Nat.le_refl 0
  | cons f fs ih =>
      have hpos := (h f List.mem_cons_self).length_pos
      have hrest := ih fun g hg => h g (List.mem_cons_of_mem f hg)
      rw [List.length_cons, List.flatten_cons, List.length_append]
      omega

end IsFrame

variable {w : Width}

theorem IsFrame.opening_append {f : Bytes} (h : IsFrame f) (hroom : f.length ≤ w.maxLength)
    (u : Bytes) : ∃ l v, opening w (f ++ u) = .whole l v ∧ l.length = f.length := by
  cases f with
  | nil => exact h.elim
  | cons b m =>
      have hlen : (Lead.ofByte b).length = (b :: m).length := by
        rw [Lead.length, List.length_cons, ← h, Nat.add_comm]
      rw [List.cons_append]
      refine ⟨_, _, opening_whole (by rwa [hlen]) ?_, hlen⟩
      rw [hlen, List.length_cons, List.length_append]
      omega

/-- What stops a reader: no bytes, too few of them, or a lead that the width has no room for. -/
theorem stop_cases {u : Bytes} {e : Fault} (h : (opening w u).result = .error e) :
    (u = [] ∧ e = .underflow ⟨1, 0⟩) ∨
      ∃ b bs, u = b :: bs ∧
        ((u.length < (Lead.ofByte b).length ∧ (Lead.ofByte b).count ≤ w.bytes ∧
            e = .underflow ⟨(Lead.ofByte b).length, u.length⟩) ∨
          (w.bytes < (Lead.ofByte b).count ∧
            e = .violation (.tooManyMagnitudeBytes (Lead.ofByte b).count))) := by
  cases u with
  | nil =>
      cases h
      exact Or.inl ⟨rfl, rfl⟩
  | cons b bs =>
      refine Or.inr ⟨b, bs, rfl, ?_⟩
      rcases opening_cons_cases w b bs with ⟨hwide, hopen⟩ | ⟨hfit, hcut, hopen⟩ | ⟨-, -, hopen⟩
      · rw [hopen] at h
        cases h
        exact Or.inr ⟨Lead.maxLength_lt_length_iff.mp hwide, rfl⟩
      · rw [hopen] at h
        cases h
        exact Or.inl ⟨hcut, Lead.length_le_maxLength_iff.mp hfit, rfl⟩
      · rw [hopen] at h
        cases h

/-- Only a lead that the width has no room for is a violation. -/
theorem result_eq_violation_iff {u : Bytes} {v : Violation} :
    (opening w u).result = .error (.violation v) ↔
      ∃ b, u.head? = some b ∧ w.bytes < (Lead.ofByte b).count ∧
        v = .tooManyMagnitudeBytes (Lead.ofByte b).count := by
  constructor
  · intro h
    rcases stop_cases h with ⟨-, he⟩ | ⟨b, bs, rfl, ⟨-, -, he⟩ | ⟨hwide, he⟩⟩
    · cases he
    · cases he
    · cases he
      exact ⟨b, rfl, hwide, rfl⟩
  · rintro ⟨b, hb, hwide, rfl⟩
    obtain ⟨bs, rfl⟩ := List.head?_eq_some_iff.mp hb
    rw [opening_wide (Lead.maxLength_lt_length_iff.mpr hwide)]
    rfl

/-- Every byte string divides into frames and a rest at which a reader stops. -/
theorem exists_division (w : Width) (u : Bytes) : ∃ (fs : List Bytes) (tail : Bytes) (e : Fault),
    (∀ f ∈ fs, IsFrame f ∧ f.length ≤ w.maxLength) ∧ u = fs.flatten ++ tail ∧
      (opening w tail).result = .error e := by
  induction hn : u.length using Nat.strongRecOn generalizing u with
  | ind n ih =>
      cases hopen : (opening w u).result with
      | error e => exact ⟨[], u, e, nofun, rfl, hopen⟩
      | ok v =>
          cases u with
          | nil => cases hopen
          | cons b bs =>
              rcases opening_cons_cases w b bs with ⟨-, h⟩ | ⟨-, -, h⟩ | ⟨hfit, hle, -⟩
              · rw [h] at hopen
                cases hopen
              · rw [h] at hopen
                cases hopen
              · rw [Lead.length] at hfit hle
                have hlen : (bs.take (Lead.ofByte b).count).length = (Lead.ofByte b).count :=
                  List.length_take_of_le (by omega)
                have hless : (bs.drop (Lead.ofByte b).count).length < n := by
                  rw [List.length_drop, ← hn, List.length_cons]
                  omega
                obtain ⟨fs, tail, e, hfs, hsplit, hstop⟩ := ih _ hless _ rfl
                refine ⟨(b :: bs.take (Lead.ofByte b).count) :: fs, tail, e, ?_, ?_, hstop⟩
                · rw [List.forall_mem_cons]
                  refine ⟨⟨hlen, ?_⟩, hfs⟩
                  rw [List.length_cons, hlen]
                  omega
                · rw [List.flatten_cons, List.append_assoc, ← hsplit, List.cons_append,
                    List.take_append_drop]

/-- If a rest has no frame in front, there is no other way to divide what comes before it. -/
theorem eq_of_flatten_eq {fs gs : List Bytes} {tail : Bytes}
    (htail : ∀ g u, IsFrame g → tail ≠ g ++ u) (hf : ∀ f ∈ fs, IsFrame f)
    (hg : ∀ g ∈ gs, IsFrame g) (h : fs.flatten ++ tail = gs.flatten) : gs = fs ∧ tail = [] := by
  induction fs generalizing gs with
  | nil =>
      cases gs with
      | nil => exact ⟨rfl, h⟩
      | cons g gs => exact absurd h (htail g gs.flatten (hg g List.mem_cons_self))
  | cons f fs ih =>
      rw [List.forall_mem_cons] at hf
      cases gs with
      | nil =>
          have hpos := hf.1.length_pos
          have hlen := congrArg List.length h
          rw [List.flatten_cons, List.append_assoc, List.length_append] at hlen
          change _ = 0 at hlen
          omega
      | cons g gs =>
          rw [List.forall_mem_cons] at hg
          rw [List.flatten_cons, List.flatten_cons, List.append_assoc] at h
          obtain ⟨rfl, hrest⟩ := hf.1.eq_of_append_eq hg.1 h
          obtain ⟨rfl, rfl⟩ := ih hf.2 hg.2 hrest
          exact ⟨rfl, rfl⟩

theorem ne_frame_append_of_underflow {tail : Bytes} {x : Underflow}
    (h : (opening w tail).result = .error (.underflow x)) (g u : Bytes) (hg : IsFrame g) :
    tail ≠ g ++ u := by
  rintro rfl
  cases g with
  | nil => exact hg
  | cons b m =>
      rcases stop_cases h with ⟨hnil, -⟩ | ⟨c, bs, hc, ⟨hshort, -, -⟩ | ⟨-, he⟩⟩
      · cases hnil
      · rw [List.cons_append, List.cons.injEq] at hc
        obtain ⟨rfl, -⟩ := hc
        have hm : m.length = (Lead.ofByte b).count := hg
        rw [Lead.length, List.length_append, List.length_cons] at hshort
        omega
      · cases he

/-- What is missing tells whether all bytes are frames, and how many of them are left if not. -/
theorem leftover_of_underflow {u tail : Bytes} {fs : List Bytes} {x : Underflow}
    (hfs : ∀ f ∈ fs, IsFrame f) (hu : u = fs.flatten ++ tail)
    (hstop : (opening w tail).result = .error (.underflow x)) :
    (x = ⟨1, 0⟩ ↔ ∃ gs : List Bytes, (∀ g ∈ gs, IsFrame g) ∧ u = gs.flatten) ∧
      (∀ gs : List Bytes, (∀ g ∈ gs, IsFrame g) → u = gs.flatten → gs = fs) ∧
      (x ≠ ⟨1, 0⟩ → x.available = tail.length ∧ 1 ≤ x.available ∧ x.available < x.requested) := by
  have hunique : ∀ gs : List Bytes, (∀ g ∈ gs, IsFrame g) → u = gs.flatten →
      gs = fs ∧ tail = [] := fun gs hgs hall =>
    eq_of_flatten_eq (ne_frame_append_of_underflow hstop) hfs hgs (hu.symm.trans hall)
  refine ⟨⟨?_, ?_⟩, fun gs hgs hall => (hunique gs hgs hall).1, ?_⟩
  · rintro rfl
    rcases stop_cases hstop with ⟨rfl, -⟩ | ⟨b, bs, rfl, ⟨-, -, he⟩ | ⟨-, he⟩⟩
    · exact ⟨fs, hfs, by rw [hu, List.append_nil]⟩
    · rw [Fault.underflow.injEq, Underflow.mk.injEq] at he
      exact absurd he.2 (Nat.succ_ne_zero _).symm
    · cases he
  · rintro ⟨gs, hgs, hall⟩
    obtain ⟨-, rfl⟩ := hunique gs hgs hall
    cases hstop
    rfl
  · intro hne
    rcases stop_cases hstop with ⟨-, he⟩ | ⟨b, bs, rfl, ⟨hshort, -, he⟩ | ⟨-, he⟩⟩
    · cases he
      exact absurd rfl hne
    · cases he
      exact ⟨rfl, Nat.succ_pos _, hshort⟩
    · cases he

namespace Buffer

variable {buf : Bytes} {offset : Nat}

theorem scan_of_error {e : Fault} (h : read w buf offset = .error e) :
    scan w buf offset = [(offset, .error e)] := by
  have hnext : next w buf offset = .error e offset := by rw [next, h]
  rw [scan, hnext]

theorem scan_of_ok {v : Signed w} {n : Nat} (h : read w buf offset = .ok v)
    (hprobe : probe buf offset = .ok n) :
    scan w buf offset = (offset, .ok v) :: scan w buf (offset + n) := by
  have hnext : next w buf offset = .ok v (offset + n) := by rw [next, h, hprobe]
  rw [scan, hnext]

theorem probe_frame {f u : Bytes} (hf : IsFrame f) (hbuf : buf.drop offset = f ++ u) :
    probe buf offset = .ok f.length := by
  cases f with
  | nil => exact hf.elim
  | cons b m => rw [probe_cons hbuf, Lead.length, List.length_cons, ← hf, Nat.add_comm]

theorem exists_read_frame {f u : Bytes} (hf : IsFrame f) (hroom : f.length ≤ w.maxLength)
    (hbuf : buf.drop offset = f ++ u) : ∃ v, read w buf offset = .ok v := by
  obtain ⟨l, v, hopen, -⟩ := hf.opening_append hroom u
  exact ⟨v, by rw [read_eq, hbuf, hopen]; rfl⟩

/-- Over frames a scan goes from each to the next, up to where a reader stops. -/
theorem scan_division {fs : List Bytes} {tail : Bytes} {e : Fault}
    (hfs : ∀ f ∈ fs, IsFrame f ∧ f.length ≤ w.maxLength)
    (hstop : (opening w tail).result = .error e) (hbuf : buf.drop offset = fs.flatten ++ tail) :
    (scan w buf offset).map Prod.fst = fs.scanl (fun o f => o + f.length) offset ∧
      ∃ vs : List (Signed w), (scan w buf offset).map Prod.snd = vs.map .ok ++ [.error e] := by
  induction fs generalizing offset with
  | nil =>
      have hread : read w buf offset = .error e := by
        rw [read_eq, hbuf]
        exact hstop
      rw [scan_of_error hread]
      exact ⟨rfl, [], rfl⟩
  | cons f fs ih =>
      rw [List.forall_mem_cons] at hfs
      obtain ⟨⟨hf, hroom⟩, hfs⟩ := hfs
      rw [List.flatten_cons, List.append_assoc] at hbuf
      obtain ⟨v, hread⟩ := exists_read_frame hf hroom hbuf
      have hbuf' : buf.drop (offset + f.length) = fs.flatten ++ tail := by
        rw [← List.drop_drop, hbuf, List.drop_left]
      obtain ⟨hreached, vs, hvalues⟩ := ih hfs hbuf'
      rw [scan_of_ok hread (probe_frame hf hbuf), List.map_cons, List.map_cons, hreached, hvalues,
        List.scanl_cons]
      exact ⟨rfl, v :: vs, rfl⟩

theorem read_of_next_eq_ok {v : Signed w} {offset' : Nat}
    (h : next w buf offset = .ok v offset') :
    read w buf offset = .ok v ∧ ∃ n, probe buf offset = .ok n ∧ offset' = offset + n := by
  rw [next] at h
  split at h
  · cases h
  · next u hread =>
      split at h
      · cases h
      · next n hprobe =>
          cases h
          exact ⟨hread, n, hprobe, rfl⟩

/-- Where there is something to read, the probe does not fail. -/
theorem read_of_next_eq_error {e : Fault} {offset' : Nat}
    (h : next w buf offset = .error e offset') : read w buf offset = .error e := by
  rw [next] at h
  split at h
  · next e' hread =>
      cases h
      exact hread
  · next u hread =>
      cases hrest : buf.drop offset with
      | nil =>
          rw [read_eq, hrest] at hread
          cases hread
      | cons b bs =>
          rw [probe_cons hrest] at h
          cases h

theorem head_scan (w : Width) (buf : Bytes) (offset : Nat) :
    ((scan w buf offset).map Prod.fst).head? = some offset := by
  rw [scan]
  split <;> rfl

/-- Each entry of a scan is what reading answers at its offset. -/
theorem eq_read_of_mem_scan {x : Nat × Except Fault (Signed w)} (hx : x ∈ scan w buf offset) :
    x.2 = read w buf x.1 := by
  fun_induction scan w buf offset with
  | case1 offset v offset' hnext ih =>
      rcases List.mem_cons.mp hx with rfl | hx
      · exact (read_of_next_eq_ok hnext).1.symm
      · exact ih hx
  | case2 offset e offset' hnext =>
      rw [List.mem_singleton.mp hx]
      exact (read_of_next_eq_error hnext).symm

/-- From each offset to the next is as far as the probe says. -/
theorem scan_isChain (w : Width) (buf : Bytes) (offset : Nat) :
    ((scan w buf offset).map Prod.fst).IsChain fun o o' => o < o' ∧ probe buf o = .ok (o' - o) := by
  fun_induction scan w buf offset with
  | case1 offset v offset' hnext ih =>
      rw [List.map_cons, List.isChain_cons, head_scan]
      refine ⟨?_, ih⟩
      rintro o ⟨⟩
      obtain ⟨-, n, hprobe, rfl⟩ := read_of_next_eq_ok hnext
      exact ⟨(lt_of_next_eq_ok hnext).2, by rw [hprobe, Nat.add_sub_cancel_left]⟩
  | case2 offset e offset' hnext => exact List.isChain_singleton _

theorem read_eq_violation_iff {v : Violation} :
    read w buf offset = .error (.violation v) ↔
      ∃ b, buf[offset]? = some b ∧ w.bytes < (Lead.ofByte b).count ∧
        v = .tooManyMagnitudeBytes (Lead.ofByte b).count := by
  rw [read_eq, ← List.head?_drop]
  exact result_eq_violation_iff

/-- Of all offsets that a scan comes to, reading fails at the last one alone. -/
theorem exists_reached_error_iff {vs : List (Signed w)} {e e' : Fault}
    (h : (scan w buf offset).map Prod.snd = vs.map .ok ++ [.error e]) :
    (∃ o ∈ (scan w buf offset).map Prod.fst, read w buf o = .error e') ↔ e' = e := by
  have hmem : .error e' ∈ (scan w buf offset).map Prod.snd ↔ e' = e := by
    rw [h]
    simp
  rw [← hmem]
  constructor
  · rintro ⟨o, ho, hread⟩
    obtain ⟨x, hx, rfl⟩ := List.mem_map.mp ho
    exact List.mem_map.mpr ⟨x, hx, (eq_read_of_mem_scan hx).trans hread⟩
  · intro hlast
    obtain ⟨x, hx, hanswer⟩ := List.mem_map.mp hlast
    exact ⟨x.1, List.mem_map_of_mem hx, (eq_read_of_mem_scan hx).symm.trans hanswer⟩

/-- No round of a scan can be followed by ever more rounds. -/
theorem acc_next (w : Width) (buf : Bytes) (offset : Nat) :
    Acc (fun o' o => ∃ v, next w buf o = .ok v o') offset := by
  apply Subrelation.accessible _ ((measure fun o => buf.length - o).wf.apply offset)
  rintro o' o ⟨v, hnext⟩
  have hlt := lt_of_next_eq_ok hnext
  change buf.length - o' < buf.length - o
  omega

/-- A scan ends. It goes from frame to frame, each where the one before it ends, and tells by its
last answer whether the bytes are frames, in which case there is no other way to divide them, or how
much of a frame is left over. Only at a lead that the narrow width has no room for does it break
off. -/
theorem scans_parse (w : Width) (buf : Bytes) (offset : Nat) :
    Acc (fun o' o => ∃ v, next w buf o = .ok v o') offset ∧
    ∃ (fs : List Bytes) (tail : Bytes) (vs : List (Signed w)) (e : Fault),
      let run := scan w buf offset
      let reached := run.map Prod.fst
      run.map Prod.snd = vs.map .ok ++ [.error e] ∧
      (∀ x ∈ run, x.2 = read w buf x.1) ∧
      (reached.IsChain fun o o' => o < o' ∧ probe buf o = .ok (o' - o)) ∧
      run.length ≤ (buf.drop offset).length + 1 ∧
      buf.drop offset = fs.flatten ++ tail ∧
      (∀ f ∈ fs, IsFrame f) ∧
      reached = fs.scanl (fun o f => o + f.length) offset ∧
      match e with
      | .underflow u =>
          (∀ o ∈ reached, ∀ b, buf[o]? = some b → (Lead.ofByte b).count ≤ w.bytes) ∧
          (u = ⟨1, 0⟩ ↔ ∃ gs : List Bytes, (∀ g ∈ gs, IsFrame g) ∧ buf.drop offset = gs.flatten) ∧
          (∀ gs : List Bytes, (∀ g ∈ gs, IsFrame g) → buf.drop offset = gs.flatten → gs = fs) ∧
          (u ≠ ⟨1, 0⟩ →
            u.available = tail.length ∧ 1 ≤ u.available ∧ u.available < u.requested)
      | .violation v =>
          w = .w32 ∧ ∃ o ∈ reached, ∃ b, buf[o]? = some b ∧ 4 < (Lead.ofByte b).count ∧
            v = .tooManyMagnitudeBytes (Lead.ofByte b).count := by
  refine ⟨acc_next w buf offset, ?_⟩
  obtain ⟨fs, tail, e, hfs, hsplit, hstop⟩ := exists_division w (buf.drop offset)
  obtain ⟨hreached, vs, hvalues⟩ := scan_division hfs hstop hsplit
  have hframes : ∀ f ∈ fs, IsFrame f := fun f hf => (hfs f hf).1
  refine ⟨fs, tail, vs, e, hvalues, fun x => eq_read_of_mem_scan, scan_isChain w buf offset, ?_,
    hsplit, hframes, hreached, ?_⟩
  · have hcount := congrArg List.length hreached
    have hfew := IsFrame.length_le_length_flatten hframes
    rw [List.length_map, List.length_scanl] at hcount
    rw [hcount, hsplit, List.length_append]
    omega
  · have herror : ∀ e', (∃ o ∈ (scan w buf offset).map Prod.fst, read w buf o = .error e') ↔
        e' = e := fun e' => exists_reached_error_iff hvalues
    cases e with
    | underflow u =>
        refine ⟨?_, leftover_of_underflow hframes hsplit hstop⟩
        intro o ho b hb
        by_contra hwide
        have hread := read_eq_violation_iff.mpr ⟨b, hb, Nat.not_le.mp hwide, rfl⟩
        cases (herror _).mp ⟨o, ho, hread⟩
    | violation v =>
        obtain ⟨o, ho, hread⟩ := (herror _).mpr rfl
        obtain ⟨b, hb, hwide, hv⟩ := read_eq_violation_iff.mp hread
        obtain ⟨hw, hcount⟩ := (w.maxLength_lt_iff b).mp (Lead.maxLength_lt_length_iff.mpr hwide)
        exact ⟨hw, o, ho, b, hb, hcount, hv⟩

/-- The third lead announces two bytes of which one is there. -/
theorem third_frame_left_over :
    scan .w64 [0x7F, 0xF8, 0x05, 0x06, 0xFF] 0 =
        [(0, .ok ⟨0⟩), (1, .ok ⟨126⟩), (3, .error (.underflow ⟨3, 2⟩))] ∧
      (¬ ∃ gs : List Bytes, (∀ g ∈ gs, IsFrame g) ∧
        ([0x7F, 0xF8, 0x05, 0x06, 0xFF] : Bytes) = gs.flatten) ∧
      ∃ (fs : List Bytes) (tail : Bytes), (∀ f ∈ fs, IsFrame f) ∧
        ([0x7F, 0xF8, 0x05, 0x06, 0xFF] : Bytes) = fs.flatten ++ tail ∧ tail.length = 2 := by
  have hrun : scan .w64 [0x7F, 0xF8, 0x05, 0x06, 0xFF] 0 =
      [(0, .ok ⟨0⟩), (1, .ok ⟨126⟩), (3, .error (.underflow ⟨3, 2⟩))] := by
    rw [scan_of_ok (v := ⟨0⟩) (n := 1) rfl rfl, scan_of_ok (v := ⟨126⟩) (n := 2) rfl rfl,
      scan_of_error (e := .underflow ⟨3, 2⟩) rfl]
  obtain ⟨-, fs, tail, vs, e, hvalues, -, -, -, hsplit, hfs, -, hend⟩ :=
    scans_parse .w64 [0x7F, 0xF8, 0x05, 0x06, 0xFF] 0
  have he := congrArg List.getLast? hvalues
  rw [hrun, List.getLast?_concat] at he
  obtain rfl : .underflow ⟨3, 2⟩ = e := Except.error.inj (Option.some.inj he)
  obtain ⟨-, hall, -, hleft⟩ := hend
  refine ⟨hrun, ?_, fs, tail, hfs, hsplit, (hleft (by decide)).1.symm⟩
  intro hframes
  exact absurd (hall.mpr hframes) (by decide)

end Buffer

end SortKey
