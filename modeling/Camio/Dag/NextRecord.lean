/-
  Camio.Dag.NextRecord

  One call of `dag_rx_stream_next_record`: it returns the next record of the card in one piece,
  or leaves the reader where it was.
-/

import Camio.Dag.Advance

namespace Camio.Dag

open Camio.Lib Camio.Erf

/-! ## Records -/

/-- A record as cards write it: it is of the length that its header declares, and padded so
    that the next one is aligned to 32 bits (or 64, if the card is told so). -/
structure IsRecord (r : List UInt8) : Prop where
  size : dagRecordSize ≤ r.length
  aligned : 4 ∣ r.length
  rlen : recordRlen (Mem.ofBytes r) 0 = r.length

/-- The header is all that `rlen` and `type` are read from. -/
theorem header_congr {m m' : Mem} {p p' : Nat} (h : m.read p 12 = m'.read p' 12) :
    recordRlen m p = recordRlen m' p' ∧ (TypeOk m p ↔ TypeOk m' p') := by
  have hbyte : ∀ i < 12, m (p + i) = m' (p' + i) := by
    intro i hi
    have hget := congrArg (fun l : List UInt8 => l[i]?) h
    rw [Mem.read_getElem? _ _ _ _ hi, Mem.read_getElem? _ _ _ _ hi] at hget
    exact Option.some.inj hget
  constructor
  · rw [recordRlen, recordRlen, Mem.read16, Mem.read16]
    refine congrArg (fun bytes => ntohs (leNat bytes)) (Mem.read_congr fun i hi => ?_)
    have hten := hbyte (rlenOffset + i) (by rw [rlenOffset]; omega)
    rwa [← Nat.add_assoc, ← Nat.add_assoc] at hten
  · rw [TypeOk, TypeOk, recordType, recordType, hbyte typeOffset (by decide)]

theorem IsRecord.rlen_lt {r : List UInt8} (h : IsRecord r) : r.length < 2 ^ 16 := by
  rw [← h.rlen]
  exact swap16_lt _

/-! ## Positions in the card's stream -/

/-- The position behind the first `n` records. -/
def behind (records : List (List UInt8)) (n : Nat) : Nat := (records.take n).flatten.length

section Positions

variable {records : List (List UInt8)} {n k : Nat} {r : List UInt8}

theorem behind_succ (h : records[n]? = some r) :
    behind records (n + 1) = behind records n + r.length := by
  rw [behind, behind, List.take_add_one, h, List.flatten_append, List.length_append]
  simp

/-- The bytes from `behind n` on begin with record `n`. -/
theorem drop_behind (h : records[n]? = some r) :
    records.flatten.drop (behind records n) = r ++ (records.drop (n + 1)).flatten := by
  obtain ⟨hlt, hget⟩ := List.getElem?_eq_some_iff.mp h
  have hsplit : records.flatten = (records.take n).flatten ++ (records.drop n).flatten := by
    rw [← List.flatten_append, List.take_append_drop]
  rw [hsplit, behind, List.drop_left, List.drop_eq_getElem_cons hlt, hget, List.flatten_cons]

/-- What the card has written behind `n` records is a part of the next one. -/
theorem written_record {written coming : List UInt8} (hcard : written ++ coming = records.flatten)
    (hr : records[n]? = some r) (hk : k ≤ r.length) (hin : behind records n + k ≤ written.length) :
    (written.drop (behind records n)).take k = r.take k := by
  have hdrop : (written.drop (behind records n)).take k
      = (records.flatten.drop (behind records n)).take k := by
    rw [← hcard, List.drop_append_of_le_length (by omega), List.take_append_of_le_length]
    rw [List.length_drop]
    omega
  rw [hdrop, drop_behind hr, List.take_append_of_le_length hk]

/-- Where there are bytes behind `n` records there is another record. -/
theorem record_of_lt (h : behind records n < records.flatten.length) :
    ∃ r, records[n]? = some r := by
  by_cases hn : n < records.length
  · exact ⟨records[n], List.getElem?_eq_getElem hn⟩
  · rw [behind, List.take_of_length_le (by omega)] at h
    exact absurd h (Nat.lt_irrefl _)

theorem behind_aligned (hrecords : ∀ r ∈ records, IsRecord r) : 4 ∣ behind records n := by
  induction n with
  | zero => simp [behind]
  | succ n ih =>
      cases hr : records[n]? with
      | none =>
          have hle : records.length ≤ n := List.getElem?_eq_none_iff.mp hr
          rw [behind, List.take_of_length_le hle] at ih
          rwa [behind, List.take_of_length_le (by omega)]
      | some r =>
          rw [behind_succ hr]
          exact Nat.dvd_add ih (hrecords r (List.mem_of_getElem? hr)).aligned

end Positions

/-! ## One call -/

/-- A stream of which `n` records have been taken, and whose next one is looked for at `next`. -/
structure Reads (records : List (List UInt8)) (size R A n next : Nat) (s : StreamT) (c : Card) :
    Prop where
  counts : Counts size R (behind records n) A s
  writes : Writes size R c
  card : c.written ++ c.coming = records.flatten
  known : A ≤ c.written.length
  aligned : 4 ∣ R
  next_mod : next % size = behind records n % size
  /-- `type` and `rlen` are in the mapping -/
  next_le : next + 12 ≤ 2 * size
  /-- The offset is left behind when memory is given back and the call fails, but then the
      next record is not complete, or never will be taken. -/
  next_eq : next = R % size + (behind records n - R) ∨
    ∀ r, records[n]? = some r → TypeOk (Mem.ofBytes r) 0 → A < behind records n + r.length

section Call

variable {records : List (List UInt8)} {size R A n next : Nat} {s : StreamT} {c : Card}

/-- The bytes of the next record, as far as it is known. -/
theorem Reads.next_bytes (h : Reads records size R A n next s c) {r : List UInt8} {p k : Nat}
    (hr : records[n]? = some r) (hk : k ≤ r.length)
    (hin : behind records n + k ≤ c.written.length) (hp : p % size = behind records n % size) :
    (twice size c.hole).read p k = r.take k := by
  rw [h.writes.carries.read hp h.counts.released_le hin, written_record h.card hr hk hin]

/-- A card that writes does not disturb the reader. -/
theorem Reads.arrive (hsize : HoleSize size) (h : Reads records size R A n next s c)
    (count : Nat) (atEnd : Bool) :
    Reads records size R A n next s (c.arrive size count atEnd) :=
  { h with
    writes := h.writes.arrive hsize count atEnd
    card := (arrive_written count atEnd).trans h.card
    known := Nat.le_trans h.known (written_arrive count atEnd).length_le }

/-- As long as the next record is not complete, any pointer to its position does. -/
theorem Reads.left_behind (h : Reads records size R A n next s c) {next' : Nat}
    (hmod : next' % size = behind records n % size) (hle : next' + 12 ≤ 2 * size)
    (hshort : ∀ r, records[n]? = some r → TypeOk (Mem.ofBytes r) 0 →
      A < behind records n + r.length) :
    Reads records size R A n next' s c :=
  { h with
    next_mod := hmod
    next_le := hle
    next_eq := Or.inr hshort }

/-- A pointer that was not left behind leaves room for all that is known. -/
theorem fresh_le {P k : Nat} (hsize : HoleSize size) (hR : 4 ∣ R) (hP : 4 ∣ P) (hle : R ≤ P)
    (hk : P + k ≤ R + (size - safetyWindow)) :
    R % size + (P - R) + k ≤ 2 * size ∧ R % size + (P - R) + 12 ≤ 2 * size := by
  have hge := hsize.ge
  have hlt : R % size < size := Nat.mod_lt _ (by rw [dagRecordSize] at hge; omega)
  have hmod : 4 ∣ R % size := (Nat.dvd_mod_iff hsize.aligned).mpr hR
  have haligned := hsize.aligned
  rw [dagRecordSize] at hge
  rw [safetyWindow] at hk
  omega

/-- `ensure` keeps the reader where it is.  Where there is too little, all that was read has
    been given back. -/
theorem Reads.ensure (hsize : HoleSize size) (h : Reads records size R A n next s c)
    (hP : 4 ∣ behind records n) (need : Nat) (hneed : need < 2 ^ 16) :
    (∃ next' s' c' R' A', Dag.ensure s c next need = (.ok next', s', c') ∧
      s'.offset = s.offset ∧ c'.written = c.written ∧ behind records n + need ≤ A' ∧
      Reads records size R' A' n next' s' c') ∨
    ∃ s' c', Dag.ensure s c next need = (.error .eagain, s', c') ∧ s'.offset = s.offset ∧
      c'.written = c.written ∧ c.written.length < behind records n + need ∧
      Reads records size (behind records n) c.written.length n (behind records n % size) s' c' := by
  have hlt : next < 2 * size := by
    have hle := h.next_le
    omega
  -- either enough is known already, or memory is given back and `record_ptr` read again
  rcases ensure_spec hsize h.counts h.writes h.known hlt h.next_mod hneed with
    ⟨henough, heq⟩ | ⟨s', c', hs, hc, hoffset, hwritten, hcoming, hresult⟩
  · exact Or.inl ⟨next, s, c, R, A, heq, rfl, rfl, henough, h⟩
  -- from here on `R` is the position of the next record
  · have hfresh := fresh_le hsize hP hP (Nat.le_refl _) (k := 0) (by omega)
    rw [Nat.sub_self, Nat.add_zero] at hfresh
    have hreads : Reads records size (behind records n) c.written.length n
        (behind records n % size) s' c' := {
      counts := hs
      writes := hc
      card := by rw [hwritten, hcoming, h.card]
      known := by simp [hwritten]
      aligned := hP
      next_mod := Nat.mod_mod _ _
      next_le := hfresh.2
      next_eq := Or.inl (by omega) }
    rcases hresult with ⟨hin, heq⟩ | ⟨hshort, heq⟩
    · exact Or.inl ⟨_, s', c', _, _, heq, hoffset, hwritten, hin, hreads⟩
    · exact Or.inr ⟨s', c', heq, hoffset, hwritten, hshort, hreads⟩

/-- The header of the next record is found at `next`. -/
theorem Reads.header (h : Reads records size R A n next s c)
    (hrecords : ∀ r ∈ records, IsRecord r) (hin : behind records n + dagRecordSize ≤ A) :
    ∃ r, records[n]? = some r ∧ recordRlen (twice size c.hole) next = r.length ∧
      (TypeOk (twice size c.hole) next ↔ TypeOk (Mem.ofBytes r) 0) := by
  have hknown := h.known
  rw [dagRecordSize] at hin
  have hlt : behind records n < records.flatten.length := by
    rw [← h.card, List.length_append]
    omega
  obtain ⟨r, hr⟩ := record_of_lt hlt
  have hrecord := hrecords r (List.mem_of_getElem? hr)
  have hge := hrecord.size
  rw [dagRecordSize] at hge
  -- what the card has written of the record is as long as its header
  have hbytes : (twice size c.hole).read next 12 = (Mem.ofBytes r).read 0 12 := by
    rw [h.next_bytes hr (by omega) (by omega) h.next_mod, Mem.ofBytes_read (by omega)]
  obtain ⟨hrlen, htype⟩ := header_congr hbytes
  exact ⟨r, hr, hrlen.trans hrecord.rlen, htype⟩

/-- Setup for the next call. -/
theorem Reads.taken (hsize : HoleSize size) (hrecords : ∀ r ∈ records, IsRecord r)
    (h : Reads records size R A n next s c) {r : List UInt8} (hr : records[n]? = some r)
    (hnext : next = R % size + (behind records n - R)) (hin : behind records n + r.length ≤ A) :
    Reads records size R A (n + 1) ((r.length + next) % 2 ^ 32) { s with
      offset := (r.length + next) % 2 ^ 32
      freeSpace := int32 (s.freeSpace - (r.length : Int))
      processed := (s.processed + r.length) % 2 ^ 32 } c := by
  have hlt := hsize.lt
  have hbehind := behind_succ hr
  have hreleased := h.counts.released_le
  have hknown_le := h.counts.known_le
  have hfresh := fresh_le hsize h.aligned (behind_aligned hrecords) (P := behind records (n + 1))
    (k := 0) (by omega) (by omega)
  -- neither the offset nor the space that is left wraps round
  have hoffset : (r.length + next) % 2 ^ 32 = R % size + (behind records (n + 1) - R) := by
    rw [Nat.mod_eq_of_lt] <;> omega
  have hfree : int32 (s.freeSpace - (r.length : Int))
      = (A : Int) - (behind records (n + 1) : Int) := by
    rw [h.counts.freeSpace, int32, Int.bmod_eq_of_le (by omega) (by omega)]
    omega
  exact {
    counts := { h.counts with
      released_le := by omega
      known_ge := by omega
      processed := by
        dsimp only
        rw [h.counts.processed, Nat.mod_eq_of_lt (by omega)]
        omega
      freeSpace := hfree }
    writes := h.writes
    card := h.card
    known := h.known
    aligned := h.aligned
    next_mod := by
      rw [hoffset, Nat.mod_add_mod, Nat.add_sub_cancel' (by omega)]
    next_le := by
      rw [hoffset]
      exact hfresh.2
    next_eq := Or.inl hoffset }

/-- A call that returns a record returns the next one, in one piece inside the mapping. -/
structure Returns (records : List (List UInt8)) (size n p : Nat) (r : List UInt8) (s : StreamT)
    (c : Card) : Prop where
  record : records[n]? = some r
  type : TypeOk (Mem.ofBytes r) 0
  fits : r.length + safetyWindow ≤ size
  position : p % size = behind records n % size
  mapped : p + r.length ≤ 2 * size
  bytes : (twice size c.hole).read p r.length = r
  reads : ∃ R A, R ≤ behind records n ∧ Reads records size R A (n + 1) s.offset s c

/-- A call that returns no record leaves the reader where it was, and says why: the record is
    not complete, or its type is none. -/
inductive Fails (records : List (List UInt8)) (size n : Nat) (s : StreamT) (c : Card) :
    Errno → Prop where
  | eagain (hreads : Reads records size (behind records n) c.written.length n s.offset s c)
      (hshort : ∀ r, records[n]? = some r → c.written.length < behind records n + r.length) :
      Fails records size n s c .eagain
  | eio {R A : Nat} {r : List UInt8} (hreads : Reads records size R A n s.offset s c)
      (hr : records[n]? = some r) (htype : ¬ TypeOk (Mem.ofBytes r) 0) :
      Fails records size n s c .eio

theorem dagRxStreamNextRecord_spec (hsize : HoleSize size) (hrecords : ∀ r ∈ records, IsRecord r)
    (h : Reads records size R A n s.firstTime.offset s.firstTime c) (count : Nat) (atEnd : Bool) :
    ∃ s' c', c.written <+: c'.written ∧
      ((∃ p r, dagRxStreamNextRecord (fun c => c.arrive size count atEnd) s c
          = (.record p, s', c') ∧ Returns records size n p r s' c') ∨
        ∃ e, dagRxStreamNextRecord (fun c => c.arrive size count atEnd) s c = (.none e, s', c') ∧
          Fails records size n s' c' e) := by
  have hP : 4 ∣ behind records n := behind_aligned hrecords
  have hopened : s.opened = true := by
    have hopen := h.counts.opened
    rw [StreamT.firstTime] at hopen
    split_ifs at hopen <;> exact hopen
  have hattached : s.attached = true := by
    have hattach := h.counts.attached
    rw [StreamT.firstTime] at hattach
    split_ifs at hattach <;> exact hattach
  rw [dagRxStreamNextRecord, if_neg (by simp [hopened]), if_neg (by simp [hattached])]
  dsimp only
  generalize s.firstTime = s at h
  -- the first `ensure` is for the header, the second one for the whole record
  rcases h.ensure hsize hP dagRecordSize (by decide) with
    ⟨next₁, s₁, c₁, R₁, A₁, heq₁, hoffset₁, hwritten₁, hin₁, h₁⟩ |
    ⟨s₁, c₁, heq₁, hoffset₁, hwritten₁, hshort₁, h₁⟩
  · rw [heq₁]
    dsimp only
    obtain ⟨r, hr, hrlen, htype⟩ := h₁.header hrecords hin₁
    have hrecord := hrecords r (List.mem_of_getElem? hr)
    have hmapped : ¬ next₁ + 12 > s₁.size + s₁.extraWindowSize := by
      have hle := h₁.next_le
      rw [h₁.counts.size_eq, h₁.counts.window]
      omega
    rw [if_neg hmapped, h₁.counts.size_eq]
    by_cases hok : TypeOk (twice size c₁.hole) next₁
    · rw [if_neg (not_not_intro hok), hrlen]
      have htypeOk := htype.mp hok
      have hmore : c.written <+: (c₁.arrive size count atEnd).written :=
        hwritten₁ ▸ written_arrive count atEnd
      -- the card may write between the two
      rcases (h₁.arrive hsize count atEnd).ensure hsize hP r.length hrecord.rlen_lt with
        ⟨next₂, s₂, c₂, R₂, A₂, heq₂, hoffset₂, hwritten₂, hin₂, h₂⟩ |
        ⟨s₂, c₂, heq₂, hoffset₂, hwritten₂, hshort₂, h₂⟩
      · -- the whole record is known, so the pointer was not left behind
        have hfresh : next₂ = R₂ % size + (behind records n - R₂) := by
          rcases h₂.next_eq with hfresh | hshort
          · exact hfresh
          · have habs := hshort r hr htypeOk
            omega
        have hreleased := h₂.counts.released_le
        have hknown_le := h₂.counts.known_le
        have hknown := h₂.known
        have hmapped := fresh_le hsize h₂.aligned hP hreleased (k := r.length) (by omega)
        rw [heq₂]
        exact ⟨_, c₂, hwritten₂ ▸ hmore, Or.inl ⟨next₂, r, rfl, {
          record := hr
          type := htypeOk
          fits := by
            have hge := hsize.ge
            rw [dagRecordSize] at hge
            rw [safetyWindow] at hknown_le ⊢
            omega
          position := h₂.next_mod
          mapped := by omega
          bytes := by
            rw [h₂.next_bytes hr (Nat.le_refl _) (by omega) h₂.next_mod, List.take_length]
          reads := ⟨R₂, A₂, hreleased, h₂.taken hsize hrecords hr hfresh hin₂⟩ }⟩⟩
      · rw [heq₂]
        have hshort : ∀ r', records[n]? = some r' →
            c₂.written.length < behind records n + r'.length := by
          intro r' hr'
          obtain rfl := Option.some.inj (hr.symm.trans hr')
          rwa [hwritten₂]
        refine ⟨s₂, c₂, hwritten₂ ▸ hmore, Or.inr ⟨_, rfl, .eagain ?_ hshort⟩⟩
        rw [hoffset₂, hoffset₁, hwritten₂]
        refine h₂.left_behind h.next_mod h.next_le fun r' hr' _ => ?_
        rw [← hwritten₂]
        exact hshort r' hr'
    -- a record without a type stays where it is
    · rw [if_pos hok]
      refine ⟨s₁, c₁, hwritten₁ ▸ List.prefix_rfl,
        Or.inr ⟨_, rfl, .eio (R := R₁) (A := A₁) ?_ hr (hok ∘ htype.mpr)⟩⟩
      rw [hoffset₁]
      refine h₁.left_behind h.next_mod h.next_le fun r' hr' htype' => ?_
      obtain rfl := Option.some.inj (hr.symm.trans hr')
      exact absurd (htype.mpr htype') hok
  -- not even the header is complete, and no record is shorter
  · rw [heq₁]
    have hshort : ∀ r, records[n]? = some r →
        c₁.written.length < behind records n + r.length := by
      intro r hr
      have hge := (hrecords r (List.mem_of_getElem? hr)).size
      rw [hwritten₁]
      omega
    refine ⟨s₁, c₁, hwritten₁ ▸ List.prefix_rfl, Or.inr ⟨_, rfl, .eagain ?_ hshort⟩⟩
    rw [hoffset₁, hwritten₁]
    refine h₁.left_behind h.next_mod h.next_le fun r hr _ => ?_
    rw [← hwritten₁]
    exact hshort r hr

end Call

end Camio.Dag
