/-
  Camio.Descr.Grammar

  The description format as a function on byte lists: `splitDescr` cuts a
  description into protocol, query and options, `printDescr` writes it down.
  On strings without `NUL` the two are inverse to each other; the cursor
  parser of `Camio.Descr.Parse` is shown to compute `splitDescr` in
  `Camio.Descr.Roundtrip`.
-/

import Camio.Descr.Parse

namespace Camio.Descr

/-- `,name=value` for each option. -/
def printOpts (opts : List (List UInt8 × List UInt8)) : List UInt8 :=
  opts.flatMap fun o => comma :: (o.1 ++ equals :: o.2)

/-- `protocol[:query][,name=value]...`. -/
def printDescr (p : List UInt8) (q : Option (List UInt8))
    (opts : List (List UInt8 × List UInt8)) : List UInt8 :=
  p ++ (match q with
    | none => []
    | some q => colon :: q) ++ printOpts opts

/-- Cut an option list, the leading `','` of each option included; `none` if an
    option has no `'='`. -/
def splitOpts : List UInt8 → Option (List (List UInt8 × List UInt8))
  | [] => some []
  | _ :: r =>
      match _hr : r.dropWhile (fun c => !stopEquals c) with
      | [] => none
      | _ :: v =>
          (splitOpts (v.dropWhile fun c => !stopComma c)).map
            ((r.takeWhile (fun c => !stopEquals c), v.takeWhile (fun c => !stopComma c)) :: ·)
termination_by l => l.length
decreasing_by
  have h1 := List.length_dropWhile_le (fun c => !stopEquals c) r
  have h2 := List.length_dropWhile_le (fun c => !stopComma c) v
  rw [_hr, List.length_cons] at h1
  rw [List.length_cons]
  omega

/-- Cut a description into protocol, query and options. -/
def splitDescr (l : List UInt8) :
    Option (List UInt8 × Option (List UInt8) × List (List UInt8 × List UInt8)) :=
  if l = [] then none
  else
    let p := l.takeWhile fun c => !stopProtocol c
    match l.dropWhile fun c => !stopProtocol c with
    | [] => some (p, none, [])
    | c :: r =>
        if c = comma then (splitOpts (c :: r)).map fun opts => (p, none, opts)
        else
          (splitOpts (r.dropWhile fun c => !stopComma c)).map fun opts =>
            (p, some (r.takeWhile fun c => !stopComma c), opts)

@[simp] theorem splitOpts_nil : splitOpts [] = some [] := by
  rw [splitOpts]

theorem splitOpts_cons_none {c : UInt8} {r : List UInt8}
    (h : r.dropWhile (fun c => !stopEquals c) = []) : splitOpts (c :: r) = none := by
  rw [splitOpts]
  split
  next => rfl
  next h' => rw [h] at h'; cases h'

theorem splitOpts_cons_some {c e : UInt8} {r v : List UInt8}
    (h : r.dropWhile (fun c => !stopEquals c) = e :: v) :
    splitOpts (c :: r) = (splitOpts (v.dropWhile fun c => !stopComma c)).map
      ((r.takeWhile (fun c => !stopEquals c), v.takeWhile (fun c => !stopComma c)) :: ·) := by
  rw [splitOpts]
  split
  next h' => rw [h] at h'; cases h'
  next h' =>
    rw [h] at h'
    cases h'
    rfl

/-! ## Cutting at a stop character -/

/-- The first character a `dropWhile` keeps fails the predicate. -/
theorem dropWhile_head_false {p : UInt8 → Bool} {l r : List UInt8} {c : UInt8}
    (h : l.dropWhile p = c :: r) : p c = false := by
  have hhead := List.head?_dropWhile_not p l
  rw [h, List.head?_cons] at hhead
  simpa using hhead

/-- A stretch without stop characters in front of a stop character, or of the
    end, is exactly what the scan takes. -/
theorem takeWhile_stretch {stop : UInt8 → Bool} {a b : List UInt8}
    (ha : ∀ c ∈ a, stop c = false) (hb : ∀ c ∈ b.head?, stop c = true) :
    (a ++ b).takeWhile (fun c => !stop c) = a ∧ (a ++ b).dropWhile (fun c => !stop c) = b := by
  have ha' : ∀ c ∈ a, (!stop c) = true := fun c hc => by simp [ha c hc]
  have htw : b.takeWhile (fun c => !stop c) = [] := by
    cases b with
    | nil => rfl
    | cons c b => exact List.takeWhile_cons_of_neg (by simp [hb c rfl])
  have hdw : b.dropWhile (fun c => !stop c) = b := by
    cases b with
    | nil => rfl
    | cons c b => exact List.dropWhile_cons_of_neg (by simp [hb c rfl])
  rw [List.takeWhile_append_of_pos ha', List.dropWhile_append_of_pos ha', htw, hdw,
    List.append_nil]
  exact ⟨rfl, rfl⟩

/-- An option list starts with a `','`. -/
theorem printOpts_head (opts : List (List UInt8 × List UInt8)) :
    ∀ c ∈ (printOpts opts).head?, c = comma := by
  cases opts with
  | nil => simp [printOpts]
  | cons o opts =>
      intro c hc
      simpa [printOpts, eq_comm] using hc

@[simp] theorem printOpts_nil : printOpts [] = [] := rfl

theorem printOpts_cons (o : List UInt8 × List UInt8) (opts : List (List UInt8 × List UInt8)) :
    printOpts (o :: opts) = comma :: (o.1 ++ equals :: (o.2 ++ printOpts opts)) := by
  simp [printOpts]

/-! ## Cutting what was printed -/

/-- Cutting a printed option list gives the options back. -/
theorem splitOpts_printOpts (opts : List (List UInt8 × List UInt8))
    (hname : ∀ o ∈ opts, ∀ c ∈ o.1, c ≠ equals ∧ c ≠ 0)
    (hvalue : ∀ o ∈ opts, ∀ c ∈ o.2, c ≠ comma ∧ c ≠ 0) :
    splitOpts (printOpts opts) = some opts := by
  induction opts with
  | nil => simp
  | cons o opts ih =>
      -- no stop character inside the name, inside the value, or missed behind it
      have hn : ∀ c ∈ o.1, stopEquals c = false := fun c hc => by
        simpa [stopEquals] using hname o List.mem_cons_self c hc
      have hv : ∀ c ∈ o.2, stopComma c = false := fun c hc => by
        simpa [stopComma] using hvalue o List.mem_cons_self c hc
      have hrest : ∀ c ∈ (printOpts opts).head?, stopComma c = true := fun c hc => by
        rw [printOpts_head opts c hc]
        rfl
      obtain ⟨hn1, hn2⟩ := takeWhile_stretch (b := equals :: (o.2 ++ printOpts opts)) hn
        (by simp [stopEquals])
      obtain ⟨hv1, hv2⟩ := takeWhile_stretch hv hrest
      rw [printOpts_cons, splitOpts_cons_some hn2, hn1, hv1, hv2,
        ih (fun o' ho' => hname o' (List.mem_cons_of_mem _ ho'))
          (fun o' ho' => hvalue o' (List.mem_cons_of_mem _ ho'))]
      rfl

/-- Cutting a printed description gives protocol, query and options back. -/
theorem splitDescr_printDescr (p : List UInt8) (q : Option (List UInt8))
    (opts : List (List UInt8 × List UInt8)) (hne : printDescr p q opts ≠ [])
    (hp : ∀ c ∈ p, c ≠ colon ∧ c ≠ comma ∧ c ≠ 0)
    (hq : ∀ l ∈ q, ∀ c ∈ l, c ≠ comma ∧ c ≠ 0)
    (hname : ∀ o ∈ opts, ∀ c ∈ o.1, c ≠ equals ∧ c ≠ 0)
    (hvalue : ∀ o ∈ opts, ∀ c ∈ o.2, c ≠ comma ∧ c ≠ 0) :
    splitDescr (printDescr p q opts) = some (p, q, opts) := by
  have hopts := splitOpts_printOpts opts hname hvalue
  have hstop : ∀ c ∈ p, stopProtocol c = false := fun c hc => by
    simpa [stopProtocol, and_assoc] using hp c hc
  rw [splitDescr, if_neg hne]
  cases q with
  | none =>
      simp only [printDescr, List.append_nil]
      obtain ⟨h1, h2⟩ := takeWhile_stretch (b := printOpts opts) hstop fun c hc => by
        rw [printOpts_head opts c hc]
        rfl
      rw [h1, h2]
      cases opts with
      | nil => rfl
      | cons o opts =>
          rw [printOpts_cons] at hopts ⊢
          simp [hopts]
  | some l =>
      simp only [printDescr, List.append_assoc, List.cons_append]
      obtain ⟨h1, h2⟩ := takeWhile_stretch (b := colon :: (l ++ printOpts opts)) hstop
        (by simp [stopProtocol])
      have hl : ∀ c ∈ l, stopComma c = false := fun c hc => by
        simpa [stopComma] using hq l rfl c hc
      obtain ⟨h3, h4⟩ := takeWhile_stretch (b := printOpts opts) hl fun c hc => by
        rw [printOpts_head opts c hc]
        rfl
      rw [h1, h2]
      simp only [h3, h4, hopts]
      rw [if_neg (by decide)]
      rfl

/-! ## Printing what was cut -/

/-- On a string without `NUL` a value scan stops at a `','` or at the end. -/
theorem dropWhile_stopComma_head {r : List UInt8} (h0 : 0 ∉ r) :
    ∀ c ∈ (r.dropWhile fun c => !stopComma c).head?, c = comma := by
  intro c hc
  have hmem : c ∈ r := (List.dropWhile_sublist _).subset (List.mem_of_mem_head? hc)
  have hstop := List.head?_dropWhile_not (fun c => !stopComma c) r
  rw [Option.mem_def.mp hc] at hstop
  have hne : c ≠ 0 := fun hz => h0 (hz ▸ hmem)
  simpa [stopComma, hne] using hstop

/-- Printing the cut option list gives the text back. -/
theorem printOpts_splitOpts (l : List UInt8) (opts : List (List UInt8 × List UInt8))
    (hnul : 0 ∉ l) (hhead : ∀ c ∈ l.head?, c = comma) (h : splitOpts l = some opts) :
    printOpts opts = l := by
  induction l using splitOpts.induct generalizing opts with
  | case1 =>
      rw [splitOpts_nil, Option.some.injEq] at h
      rw [← h, printOpts_nil]
  | case2 c r hr =>
      rw [splitOpts_cons_none hr] at h
      cases h
  | case3 c r eq v hr ih =>
      -- without a `NUL` the name scan can only have stopped at a '='
      have hr0 : 0 ∉ r := fun h0 => hnul (List.mem_cons_of_mem _ h0)
      have hsplit : r = r.takeWhile (fun c => !stopEquals c) ++ eq :: v := by
        rw [← hr, List.takeWhile_append_dropWhile]
      have hmem : ∀ x ∈ eq :: v, x ∈ r := fun x hx => by
        rw [hsplit]
        exact List.mem_append_right _ hx
      have heq : eq = equals := by
        have := dropWhile_head_false hr
        have h0 : eq ≠ 0 := fun h0 => hr0 (h0 ▸ hmem eq List.mem_cons_self)
        simpa [stopEquals, h0] using this
      -- behind the value the rest starts with a ',' again
      have hv0 : 0 ∉ v := fun h0 => hr0 (hmem 0 (List.mem_cons_of_mem _ h0))
      rw [splitOpts_cons_some hr] at h
      obtain ⟨rest, hrest, rfl⟩ := Option.map_eq_some_iff.mp h
      have hprint := ih rest
        (fun h0 => hv0 ((List.dropWhile_sublist _).subset h0))
        (dropWhile_stopComma_head hv0) hrest
      have hc : c = comma := hhead c rfl
      rw [printOpts_cons, hprint, List.takeWhile_append_dropWhile, hc, ← heq, ← hsplit]

/-- Printing the cut description gives the text back. -/
theorem printDescr_splitDescr (l : List UInt8) (hnul : 0 ∉ l)
    {p : List UInt8} {q : Option (List UInt8)} {opts : List (List UInt8 × List UInt8)}
    (h : splitDescr l = some (p, q, opts)) : printDescr p q opts = l := by
  have hl : l = l.takeWhile (fun c => !stopProtocol c) ++ l.dropWhile (fun c => !stopProtocol c) :=
    (List.takeWhile_append_dropWhile).symm
  rw [splitDescr] at h
  split at h
  next => cases h
  next =>
    dsimp only at h
    split at h
    next hd =>
      -- only a protocol
      cases h
      rw [hd, List.append_nil] at hl
      simp [printDescr, ← hl]
    next c r hd =>
      have hmem : ∀ x ∈ c :: r, x ∈ l := fun x hx => by
        rw [hl, hd]
        exact List.mem_append_right _ hx
      have hr0 : 0 ∉ r := fun h0 => hnul (hmem 0 (List.mem_cons_of_mem _ h0))
      have hc0 : c ≠ 0 := fun h0 => hnul (h0 ▸ hmem c List.mem_cons_self)
      split at h
      next hc =>
        -- a ',': options straight behind the protocol
        obtain ⟨opts', hopts, heq⟩ := Option.map_eq_some_iff.mp h
        cases heq
        have hprint := printOpts_splitOpts (c :: r) opts (fun h0 => hnul (hmem 0 h0))
          (fun x hx => by simpa [hc, eq_comm] using hx) hopts
        simp only [printDescr, List.append_nil]
        rw [hprint, ← hd, ← hl]
      next hc =>
        -- neither ',' nor the end: a ':' and a query
        obtain ⟨opts', hopts, heq⟩ := Option.map_eq_some_iff.mp h
        cases heq
        have hcolon : c = colon := by
          have := dropWhile_head_false hd
          simpa [stopProtocol, hc, hc0] using this
        have hprint := printOpts_splitOpts (r.dropWhile fun c => !stopComma c) opts
          (fun h0 => hr0 ((List.dropWhile_sublist _).subset h0))
          (dropWhile_stopComma_head hr0) hopts
        simp only [printDescr]
        rw [hprint, List.append_assoc, List.cons_append, List.takeWhile_append_dropWhile,
          ← hcolon, ← hd, ← hl]

end Camio.Descr
