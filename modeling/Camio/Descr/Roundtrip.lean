/-
  Camio.Descr.Roundtrip

  `camio_descr_parse` computes `splitDescr`: the cursor loops take the stretches
  that the list functions cut off, the option nodes end up linked in the order
  they were read, and no character behind the terminator is looked at.  With
  the grammar's own round trip this gives the round trip of the parser.
-/

import Camio.Descr.Grammar

namespace Camio.Descr

open Camio.Lib

/-! ## The linked option list -/

/-- The heap holds the options in order, each node pointing at the one behind
    it and the last one at `NULL`. -/
def Linked (heap : List CamioOpt) (opts : List (List UInt8 × List UInt8)) : Prop :=
  heap.length = opts.length ∧
    ∀ i (h : i < opts.length), heap[i]? = some
      { name := some opts[i].1
        value := some opts[i].2
        next := if i + 1 < opts.length then some (i + 1) else none }

/-- The position of the last of `n` nodes, and of the first. -/
def lastPtr (n : Nat) : Option Nat := if n = 0 then none else some (n - 1)
def headPtr (n : Nat) : Option Nat := if n = 0 then none else some 0

theorem linked_nil : Linked [] [] := by
  simp [Linked]

/-- Linking one more node behind the last one. -/
theorem linked_linkOpt {d : CamioDescr} {opts : List (List UInt8 × List UInt8)}
    (h : Linked d.heap opts) (hhead : d.optHead = headPtr opts.length)
    (o : List UInt8 × List UInt8) :
    let d' := linkOpt d (lastPtr opts.length)
      { name := some o.1, value := some o.2, next := none }
    Linked d'.heap (opts ++ [o]) ∧ d'.optHead = headPtr (opts ++ [o]).length := by
  obtain ⟨hlen, hnode⟩ := h
  refine ⟨⟨?_, ?_⟩, ?_⟩
  · simp only [linkOpt, List.length_append, List.length_cons, List.length_nil]
    split <;> simp [hlen]
  · intro i hi
    rw [List.length_append, List.length_singleton] at hi
    by_cases hlast : i = opts.length
    · -- the new node
      subst hlast
      simp only [linkOpt]
      split <;> simp [← hlen]
    · -- an old node: only the last one changes, its `next`
      have hold : i < opts.length := by omega
      have hne : opts.length ≠ 0 := by omega
      simp only [linkOpt, lastPtr, if_neg hne]
      rw [List.getElem?_append_left (by simpa [hlen] using hold), List.getElem?_modify,
        hnode i hold, List.getElem_append_left hold]
      have h2 : i + 1 < (opts ++ [o]).length := by simpa using hold
      by_cases hi1 : opts.length - 1 = i
      · have hi2 : opts.length = i + 1 := by omega
        simp [hi2, hlen]
      · have h1 : i + 1 < opts.length := by omega
        simp [hi1, h1, hold]
  · simp only [linkOpt, hhead, headPtr, List.length_append, List.length_singleton]
    split <;> simp [*]

@[simp] theorem terminateOpts_protocol (d : CamioDescr) (opt : Option Nat) :
    (terminateOpts d opt).protocol = d.protocol := by
  cases opt <;> rfl

@[simp] theorem terminateOpts_query (d : CamioDescr) (opt : Option Nat) :
    (terminateOpts d opt).query = d.query := by
  cases opt <;> rfl

@[simp] theorem terminateOpts_optHead (d : CamioDescr) (opt : Option Nat) :
    (terminateOpts d opt).optHead = d.optHead := by
  cases opt <;> rfl

/-- Terminating the list changes nothing: the last node points nowhere already. -/
theorem linked_terminateOpts {d : CamioDescr} {opts : List (List UInt8 × List UInt8)}
    (h : Linked d.heap opts) : Linked (terminateOpts d (lastPtr opts.length)).heap opts := by
  obtain ⟨hlen, hnode⟩ := h
  by_cases hne : opts.length = 0
  · simpa [terminateOpts, lastPtr, hne] using ⟨hlen, hnode⟩
  · simp only [terminateOpts, lastPtr, if_neg hne]
    refine ⟨by simpa using hlen, fun i hi => ?_⟩
    rw [List.getElem?_modify, hnode i hi]
    by_cases hi1 : opts.length - 1 = i
    · have h1 : ¬ i + 1 < opts.length := by omega
      simp [hi1, h1]
    · simp [hi1]

/-- Following `next` through a linked list collects the options in order. -/
theorem walkOpts_linked {heap : List CamioOpt} {opts : List (List UInt8 × List UInt8)}
    (h : Linked heap opts) (fuel : Nat) {i : Nat} (hfuel : opts.length ≤ fuel + i) :
    walkOpts heap fuel (if i < opts.length then some i else none)
      = (opts.drop i).map fun o => (some o.1, some o.2) := by
  induction fuel generalizing i with
  | zero => rw [List.drop_eq_nil_of_le (by omega)]; rfl
  | succ fuel ih =>
      by_cases hi : i < opts.length
      · rw [if_pos hi, walkOpts, h.2 i hi, List.drop_eq_getElem_cons hi, List.map_cons]
        simp only
        rw [ih (by omega)]
      · rw [if_neg hi, walkOpts, List.drop_eq_nil_of_le (by omega)]
        rfl

theorem options_of_linked {d : CamioDescr} {opts : List (List UInt8 × List UInt8)}
    (h : Linked d.heap opts) (hhead : d.optHead = headPtr opts.length) :
    d.options = opts.map fun o => (some o.1, some o.2) := by
  have hwalk := walkOpts_linked h opts.length (i := 0) (by omega)
  have hptr : headPtr opts.length = if 0 < opts.length then some 0 else none := by
    rw [headPtr]
    split <;> split <;> first | rfl | omega
  rw [CamioDescr.options, h.1, hhead, hptr, hwalk, List.drop_zero]

/-! ## The parser computes `splitDescr` -/

/-- What `parse_options` leaves behind when `cut` is cut off what is left of the
    string, `opts` being linked already: the options linked in order, or the
    error exit for an option without `'='`. -/
def OptionsParsed (d : CamioDescr) (opts : List (List UInt8 × List UInt8))
    (result : Except ParseFault (CamioDescr × Option Nat)) :
    Option (List (List UInt8 × List UInt8)) → Prop
  | none => ∃ e, result = .error (.exit e)
  | some cut => ∃ d', result = .ok (d', lastPtr (opts ++ cut).length) ∧
      Linked d'.heap (opts ++ cut) ∧ d'.optHead = headPtr (opts ++ cut).length ∧
      d'.protocol = d.protocol ∧ d'.query = d.query

/-- On the terminator the loop ends at once. -/
theorem parseOptions_end {s : CStr} {fuel head : Nat} (d : CamioDescr) (prev : Option Nat)
    (hhead : head ≤ s.length) (hfuel : 0 < fuel) (hrest : s.bytes.drop head = []) :
    parseOptions s fuel head d prev = .ok (d, prev) := by
  obtain ⟨fuel, rfl⟩ := Nat.exists_eq_succ_of_ne_zero (Nat.pos_iff_ne_zero.mp hfuel)
  rw [parseOptions, (CStr.charAt_eq_zero_iff_drop hhead).mpr hrest]
  simp

/-- The option linked last counts among the options linked already. -/
theorem OptionsParsed.cons {d d' : CamioDescr} {o : List UInt8 × List UInt8}
    {opts : List (List UInt8 × List UInt8)}
    {result : Except ParseFault (CamioDescr × Option Nat)}
    {cut : Option (List (List UInt8 × List UInt8))}
    (h : OptionsParsed d' (opts ++ [o]) result cut)
    (hp : d'.protocol = d.protocol) (hq : d'.query = d.query) :
    OptionsParsed d opts result (cut.map (o :: ·)) := by
  cases cut with
  | none => exact h
  | some cut =>
      obtain ⟨d'', hres, hlinked, hptr, hp', hq'⟩ := h
      rw [List.append_assoc, List.singleton_append] at hres hlinked hptr
      exact ⟨d'', hres, hlinked, hptr, hp'.trans hp, hq'.trans hq⟩

theorem parseOptions_parsed {s : CStr} {fuel head : Nat} {d : CamioDescr}
    {opts : List (List UInt8 × List UInt8)} (hhead : head ≤ s.length)
    (hfuel : s.length < fuel + head) (hlinked : Linked d.heap opts)
    (hptr : d.optHead = headPtr opts.length) :
    OptionsParsed d opts (parseOptions s fuel head d (lastPtr opts.length))
      (splitOpts (s.bytes.drop head)) := by
  induction fuel generalizing head d opts with
  | zero => omega
  | succ fuel ih =>
      cases hrest : s.bytes.drop head with
      | nil =>
          rw [splitOpts_nil]
          exact ⟨d, by simpa using parseOptions_end d _ hhead (Nat.succ_pos fuel) hrest,
            by simpa using hlinked, by simpa using hptr, rfl, rfl⟩
      | cons c r =>
          obtain ⟨hlt, hr⟩ := CStr.of_drop_eq_cons hrest
          have hc : s.charAt head = some c := CStr.charAt_of_drop_eq_cons hrest
          have hc0 : c ≠ 0 := fun h0 => CStr.charAt_ne_zero hlt (h0 ▸ hc)
          -- the name, up to the '='
          obtain ⟨eq, hscan, hle, heq, hname, hafter⟩ :=
            CStr.scan_spec stopEquals rfl hlt hr
          simp only [parseOptions, hc, if_neg hc0, hscan, CStr.charAt_eq_zero_iff_drop heq, hafter]
          cases hd : r.dropWhile (fun c => !stopEquals c) with
          | nil =>
              -- no '=' in the rest: the scan ran into the terminator
              rw [splitOpts_cons_none hd, if_pos rfl]
              exact ⟨_, rfl⟩
          | cons e v =>
              rw [hd] at hafter
              obtain ⟨heqlt, hv⟩ := CStr.of_drop_eq_cons hafter
              -- the value, up to the ',' or the terminator
              obtain ⟨stop, hscan', hle', hstop, hvalue, hafter'⟩ :=
                CStr.scan_spec stopComma rfl heqlt hv
              -- the new node is linked last; the rest is the next turn's
              obtain ⟨hlinked', hptr'⟩ := linked_linkOpt hlinked hptr
                (r.takeWhile (fun c => !stopEquals c), v.takeWhile (fun c => !stopComma c))
              have hnew : some d.heap.length = lastPtr
                  (opts ++ [(r.takeWhile (fun c => !stopEquals c),
                    v.takeWhile (fun c => !stopComma c))]).length := by
                simp [lastPtr, hlinked.1]
              have hnext := ih hstop (by omega) hlinked' hptr'
              rw [splitOpts_cons_some hd, if_neg (List.cons_ne_nil _ _), hscan', ← hafter']
              simp only [hname, hvalue, hnew, CStr.charAt_eq_zero_iff_drop hstop]
              refine OptionsParsed.cons ?_ rfl rfl
              by_cases hend : s.bytes.drop stop = []
              · -- `done`: the next turn would end at the terminator as well
                rw [if_pos hend]
                rwa [parseOptions_end _ _ hstop ?_ hend] at hnext
                have := List.drop_eq_nil_iff.mp hend
                rw [CStr.length] at *
                omega
              · rwa [if_neg hend]

/-- The label `parse_options` on a fresh descriptor. -/
theorem parseOptionList_eq {s : CStr} {head : Nat} (d : CamioDescr)
    (hhead : head ≤ s.length) (hfresh : d.heap = [] ∧ d.optHead = none) :
    match splitOpts (s.bytes.drop head) with
    | none => ∃ e, parseOptionList s head d = .error (.exit e)
    | some opts => ∃ d', parseOptionList s head d = .ok d' ∧
        d'.protocol = d.protocol ∧ d'.query = d.query ∧
        d'.options = opts.map fun o => (some o.1, some o.2) := by
  have hlinked : Linked d.heap [] := by
    rw [hfresh.1]
    exact linked_nil
  have hparsed := parseOptions_parsed hhead (by omega : s.length < s.length + 1 + head)
    hlinked hfresh.2
  rw [show lastPtr [].length = none from rfl] at hparsed
  cases hcut : splitOpts (s.bytes.drop head) with
  | none =>
      rw [hcut] at hparsed
      obtain ⟨e, he⟩ := hparsed
      exact ⟨e, by rw [parseOptionList, he]⟩
  | some opts =>
      rw [hcut] at hparsed
      obtain ⟨d', hres, hlinked, hptr, hp, hq⟩ := hparsed
      rw [List.nil_append] at hres hlinked hptr
      exact ⟨terminateOpts d' (lastPtr opts.length), by rw [parseOptionList, hres],
        by simpa using hp, by simpa using hq,
        options_of_linked (linked_terminateOpts hlinked) (by simpa using hptr)⟩

/-- `camio_descr_parse` on a fresh descriptor computes `splitDescr`, and ends in
    an error exit where that has no result. -/
theorem camioDescrParse_eq (s : CStr) :
    match splitDescr s.bytes with
    | none => ∃ e, camioDescrParse s (some camioDescrConstruct) = .error (.exit e)
    | some (p, q, opts) => ∃ d, camioDescrParse s (some camioDescrConstruct) = .ok d ∧
        d.protocol = some p ∧ d.query = q ∧
        d.options = opts.map fun o => (some o.1, some o.2) := by
  rw [splitDescr]
  by_cases hnil : s.bytes = []
  · -- the empty description is rejected
    rw [if_pos hnil]
    have h0 := (CStr.charAt_eq_zero_iff_drop (Nat.zero_le s.length)).mpr
      (by rw [hnil]; rfl : s.bytes.drop 0 = [])
    simp only [camioDescrParse, if_pos h0]
    exact ⟨_, rfl⟩
  · have h0 : s.charAt 0 ≠ some 0 := fun h0 =>
      hnil ((CStr.charAt_eq_zero_iff_drop (Nat.zero_le s.length)).mp h0)
    -- the protocol
    obtain ⟨head, hscan, -, hhead, hslice, hafter⟩ :=
      CStr.scan_spec (s := s) stopProtocol rfl (Nat.zero_le _) List.drop_zero
    simp only [if_neg hnil, camioDescrParse, if_neg h0, hscan, hslice,
      CStr.charAt_eq_zero_iff_drop hhead, hafter]
    cases hd : s.bytes.dropWhile (fun c => !stopProtocol c) with
    | nil =>
        rw [if_pos rfl]
        exact ⟨_, rfl, rfl, rfl, rfl⟩
    | cons c r =>
        rw [hd] at hafter
        have hc : s.charAt head = some c := CStr.charAt_of_drop_eq_cons hafter
        rw [if_neg (List.cons_ne_nil c r), hc]
        simp only [Option.some.injEq]
        by_cases hcomma : c = comma
        · -- `goto parse_options`: there is no query
          have hopts := parseOptionList_eq
            { camioDescrConstruct with
              protocol := some (s.bytes.takeWhile fun c => !stopProtocol c) }
            hhead ⟨rfl, rfl⟩
          rw [hafter] at hopts
          simp only [if_pos hcomma]
          cases hcut : splitOpts (c :: r) with
          | none =>
              rw [hcut] at hopts
              exact hopts
          | some opts =>
              rw [hcut] at hopts
              exact hopts
        · -- a ':': the query comes before the options
          obtain ⟨hlt, hr⟩ := CStr.of_drop_eq_cons hafter
          obtain ⟨stop, hscan', -, hstop, hquery, hafter'⟩ :=
            CStr.scan_spec stopComma rfl hlt hr
          have hopts := parseOptionList_eq
            { camioDescrConstruct with
              protocol := some (s.bytes.takeWhile fun c => !stopProtocol c)
              query := some (r.takeWhile fun c => !stopComma c) }
            hstop ⟨rfl, rfl⟩
          rw [hafter'] at hopts
          simp only [if_neg hcomma, hscan', hquery]
          cases hcut : splitOpts (r.dropWhile fun c => !stopComma c) with
          | none =>
              rw [hcut] at hopts
              exact hopts
          | some opts =>
              rw [hcut] at hopts
              exact hopts

/-! ## Round trip of the parser -/

/-- **Stream descriptions round-trip.**  A printed description is parsed into
    exactly its protocol, query and options, in order; and whatever is accepted
    prints back to the string that was parsed. -/
theorem camioDescrParse_roundtrip :
    (∀ (s : CStr) (p : List UInt8) (q : Option (List UInt8))
        (opts : List (List UInt8 × List UInt8)),
      s.bytes = printDescr p q opts → s.bytes ≠ [] →
      (∀ c ∈ p, c ≠ colon ∧ c ≠ comma) → (∀ l ∈ q, ∀ c ∈ l, c ≠ comma) →
      (∀ o ∈ opts, ∀ c ∈ o.1, c ≠ equals) → (∀ o ∈ opts, ∀ c ∈ o.2, c ≠ comma) →
      ∃ d, camioDescrParse s (some camioDescrConstruct) = .ok d ∧
        d.protocol = some p ∧ d.query = q ∧
        d.options = opts.map fun o => (some o.1, some o.2)) ∧
    (∀ (s : CStr) (d : CamioDescr),
      camioDescrParse s (some camioDescrConstruct) = .ok d →
      ∃ p opts, d.protocol = some p ∧ d.options = opts.map (fun o => (some o.1, some o.2)) ∧
        printDescr p d.query opts = s.bytes) := by
  constructor
  -- print, then parse; no component holds a `NUL`, since the string holds none
  · intro s p q opts hprint hne hp hq hname hvalue
    have hnul : ∀ c ∈ printDescr p q opts, c ≠ 0 := fun c hc h0 =>
      s.noNul (by rw [hprint]; exact h0 ▸ hc)
    have hoptNul : ∀ o ∈ opts, ∀ c, c ∈ o.1 ∨ c ∈ o.2 → c ≠ 0 := fun o ho c hc =>
      hnul c (List.mem_append_right _ (List.mem_flatMap.mpr
        ⟨o, ho, by rcases hc with hc | hc <;> simp [hc]⟩))
    have hcut := splitDescr_printDescr p q opts (hprint ▸ hne)
      (fun c hc => ⟨(hp c hc).1, (hp c hc).2, hnul c (by simp [printDescr, hc])⟩)
      (fun l hl c hc => ⟨hq l hl c hc, hnul c (by
        rw [Option.mem_def] at hl
        simp [printDescr, hl, hc])⟩)
      (fun o ho c hc => ⟨hname o ho c hc, hoptNul o ho c (Or.inl hc)⟩)
      (fun o ho c hc => ⟨hvalue o ho c hc, hoptNul o ho c (Or.inr hc)⟩)
    have hparse := camioDescrParse_eq s
    rw [hprint, hcut] at hparse
    exact hparse
  -- parse, then print
  · intro s d hok
    have hparse := camioDescrParse_eq s
    cases hcut : splitDescr s.bytes with
    | none =>
        rw [hcut] at hparse
        obtain ⟨e, he⟩ := hparse
        rw [hok] at he
        cases he
    | some r =>
        obtain ⟨p, q, opts⟩ := r
        rw [hcut] at hparse
        obtain ⟨d', hok', hp, hq, hopts⟩ := hparse
        rw [hok, Except.ok.injEq] at hok'
        subst hok'
        exact ⟨p, opts, hp, hopts, by rw [hq]; exact printDescr_splitDescr s.bytes s.noNul hcut⟩

/-- `log:f,a=1`: protocol `log`, query `f`, one option. -/
theorem camioDescrParse_roundtrip_log :
    ∃ d, camioDescrParse ⟨[108, 111, 103, 58, 102, 44, 97, 61, 49], by simp⟩
        (some camioDescrConstruct) = .ok d ∧
      d.protocol = some [108, 111, 103] ∧ d.query = some [102] ∧
      d.options = [(some [97], some [49])] :=
  camioDescrParse_roundtrip.1 ⟨[108, 111, 103, 58, 102, 44, 97, 61, 49], by simp⟩
    [108, 111, 103] (some [102]) [([97], [49])] rfl (by simp)
    (by simp [colon, comma]) (by simp [comma]) (by simp [equals]) (by simp [comma])

end Camio.Descr
