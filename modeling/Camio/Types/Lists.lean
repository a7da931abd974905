/-
  Camio.Types.Lists

  `camio_types.c`: lists that grow, one set of functions for each type of element.

  `camio_list_init_define` and `camio_list_add_define` define them; the members of the
  family differ in the type of the elements only, that is, in `sizeof(type)`.  A store that
  does not go to a live block of sufficient size is the fault `wildStore`.
-/

import Mathlib.Algebra.Group.Nat.Defs
import Camio.Errors
import Camio.Lib.Blocks
import Camio.Lib.Except

namespace Camio.Types

open Camio.Lib

/-- The names that the lists are defined for. -/
inductive ListName where
  | bool
  | string
  | uint64
  | int64
  | double
  | istream
  | ostream
deriving DecidableEq

/-- `sizeof(type)`: a `bool` list holds `int`s, the others 64 bit numbers or pointers. -/
def ListName.sizeof : ListName → Nat
  | .bool => 4
  | _ => 8

/-- `camio_##name##_list_t`. -/
structure CamioList where
  size : Nat
  count : Nat
  items : Nat
deriving DecidableEq

/-- Why a function does not return. -/
inductive ListFault where
  | exit (e : ErrorExit)
  | wildStore
deriving DecidableEq

variable {α : Type _}

/-- `camio_##name##_list_init`. -/
def camioListInit (A : BlockAllocator α) (name : ListName) (h : Heap α) (size : Nat) :
    Except ListFault (CamioList × Heap α) :=
  let bytes := size * name.sizeof % 2 ^ 64
  match A.malloc h bytes with
  | none => .error (.exit
      ⟨.nullPtr, "No memory available for initialization to size %lu\n"⟩)
  | some items => .ok ({ size := size, count := 0, items := items }, h.alloc items bytes)

/-- The growth of a full list.  What `realloc` returns is compared with `NULL` only. -/
def growList (A : BlockAllocator α) (name : ListName) (list : CamioList) (h : Heap α) :
    Except ListFault (CamioList × Heap α) :=
  let size := list.size * 2 % 2 ^ 64
  match A.realloc h list.items size with
  | none => .error (.exit
      ⟨.nullPtr, "No memory available for reallocation to size %lu\n"⟩)
  | some p => .ok ({ list with size := size }, h.resize name.sizeof list.items p size)

/-- `camio_##name##_list_add`. -/
def camioListAdd (A : BlockAllocator α) (name : ListName) (s : CamioList × Heap α) (item : α) :
    Except ListFault (CamioList × Heap α) :=
  (if s.1.count = s.1.size then growList A name s.1 s.2 else .ok s).bind fun (list, h) =>
    match h.store name.sizeof list.items list.count item with
    | none => .error .wildStore
    | some h => .ok ({ list with count := (list.count + 1) % 2 ^ 64 }, h)

/-- Add the items one after the other. -/
def addAll (A : BlockAllocator α) (name : ListName) :
    CamioList × Heap α → List α → Except ListFault (CamioList × Heap α)
  | s, [] => .ok s
  | s, v :: vs => (camioListAdd A name s v).bind fun s => addAll A name s vs

/-- `camio_list_init`, and then `camio_list_add` for each item. -/
def listOf (A : BlockAllocator α) (name : ListName) (h : Heap α) (size : Nat) (vs : List α) :
    Except ListFault (CamioList × Heap α) :=
  (camioListInit A name h size).bind fun s => addAll A name s vs

/-- The list holds `vs`, in a live block that is large enough for all of it. -/
structure Keeps (name : ListName) (vs : List α) (s : CamioList × Heap α) : Prop where
  live : ∃ b, s.2 s.1.items = some b ∧ s.1.size * name.sizeof ≤ b.bytes
  count_le : s.1.count ≤ s.1.size
  count_eq : s.1.count = vs.length
  items : ∀ i, i < vs.length → s.2.load s.1.items i = vs[i]?

/-! ## Up to the initial size -/

/-- A list of initial size `size` that has not grown. -/
structure NotGrown (name : ListName) (size : Nat) (vs : List α) (s : CamioList × Heap α) :
    Prop where
  size_eq : s.1.size = size
  count_eq : s.1.count = vs.length
  length_le : vs.length ≤ size
  block : ∃ b, s.2 s.1.items = some b ∧ b.bytes = size * name.sizeof % 2 ^ 64 ∧
    ∀ i, i < vs.length → b.objects i = vs[i]?

section NotGrown

variable {A : BlockAllocator α} {name : ListName} {size : Nat} {vs ws : List α} {v : α}
  {s s' : CamioList × Heap α} {h : Heap α}

theorem four_le_sizeof (name : ListName) : 4 ≤ name.sizeof := by
  cases name <;> decide

theorem camioListInit_notGrown (hinit : camioListInit A name h size = .ok s) :
    NotGrown name size [] s := by
  simp only [camioListInit] at hinit
  split at hinit
  next => cases hinit
  next items _ =>
    cases hinit
    exact ⟨rfl, rfl, Nat.zero_le _, _, Heap.alloc_self _ _ _, rfl,
      fun i hi => absurd hi (Nat.not_lt_zero i)⟩

/-- With room left the list does not grow. -/
theorem camioListAdd_room (hroom : s.1.count ≠ s.1.size) :
    camioListAdd A name s v =
      match s.2.store name.sizeof s.1.items s.1.count v with
      | none => .error .wildStore
      | some h => .ok ({ s.1 with count := (s.1.count + 1) % 2 ^ 64 }, h) := by
  rw [camioListAdd, if_neg hroom]
  rfl

/-- With room left, an item that fits into the block is added to it. -/
theorem NotGrown.add (hs : NotGrown name size vs s) (hlt : vs.length < size)
    (hsize : size < 2 ^ 64) :
    (camioListAdd A name s v = .error .wildStore ∧
        size * name.sizeof % 2 ^ 64 < (vs.length + 1) * name.sizeof) ∨
      ∃ s', camioListAdd A name s v = .ok s' ∧ NotGrown name size (vs ++ [v]) s' := by
  obtain ⟨b, hb, hbytes, hobjects⟩ := hs.block
  have hroom : s.1.count ≠ s.1.size := by
    rw [hs.count_eq, hs.size_eq]
    exact Nat.ne_of_lt hlt
  by_cases hfits : (s.1.count + 1) * name.sizeof ≤ b.bytes
  · refine Or.inr ⟨({ s.1 with count := (s.1.count + 1) % 2 ^ 64 },
      Function.update s.2 s.1.items (some { b with
        objects := Function.update b.objects s.1.count (some v) })), ?_, ?_⟩
    · rw [camioListAdd_room hroom, Heap.store_eq_some hb hfits]
    · refine ⟨hs.size_eq, ?_, ?_, _, Function.update_self .., hbytes, fun i hi => ?_⟩
      · rw [List.length_append, List.length_singleton, ← hs.count_eq]
        exact Nat.mod_eq_of_lt (by rw [hs.count_eq]; omega)
      · rw [List.length_append, List.length_singleton]
        exact hlt
      · dsimp only
        rw [hs.count_eq]
        by_cases hi' : i = vs.length
        · rw [hi', Function.update_self, List.getElem?_concat_length]
        · rw [List.length_append, List.length_singleton] at hi
          have hold : i < vs.length := by omega
          rw [Function.update_of_ne hi', hobjects i hold, List.getElem?_append_left hold]
  · refine Or.inl ⟨?_, ?_⟩
    · rw [camioListAdd_room hroom, Heap.store_eq_none hb hfits]
    · rw [← hbytes, ← hs.count_eq]
      exact Nat.lt_of_not_le hfits

/-- A full list is lost: the block is too small for the next item, or somewhere else. -/
theorem NotGrown.add_full (hs : NotGrown name size vs s) (hfull : vs.length = size) :
    ∃ e, camioListAdd A name s v = .error e := by
  obtain ⟨b, hb, -, -⟩ := hs.block
  have hcount : s.1.count = s.1.size := by rw [hs.count_eq, hs.size_eq, hfull]
  have hwidth := four_le_sizeof name
  rw [camioListAdd, if_pos hcount, growList]
  dsimp only
  cases hrealloc : A.realloc s.2 s.1.items (s.1.size * 2 % 2 ^ 64) with
  | none => exact ⟨_, rfl⟩
  | some p =>
      refine ⟨.wildStore, ?_⟩
      have hnone : (s.2.resize name.sizeof s.1.items p (s.1.size * 2 % 2 ^ 64)).store name.sizeof
          s.1.items s.1.count v = none := by
        by_cases hp : p = s.1.items
        · -- twice as many bytes as there were items
          obtain ⟨b', hb', hbytes⟩ := @Heap.resize_self α s.2 name.sizeof s.1.items b
            (s.1.size * 2 % 2 ^ 64) hb
          have hmul : (s.1.count + 1) * 4 ≤ (s.1.count + 1) * name.sizeof :=
            Nat.mul_le_mul_left _ hwidth
          rw [hp]
          exact Heap.store_eq_none hb' (by omega)
        · rw [Heap.store, Heap.resize_moved hp]
      simp only [Except.bind, hnone]

/-- Whoever adds has not added more than the initial size. -/
theorem NotGrown.addAll (hs : NotGrown name size vs s) (hsize : size < 2 ^ 64)
    (hadd : Types.addAll A name s ws = .ok s') : NotGrown name size (vs ++ ws) s' := by
  induction ws generalizing s vs with
  | nil =>
      cases hadd
      rwa [List.append_nil]
  | cons v ws ih =>
      rw [Types.addAll] at hadd
      rcases Nat.lt_or_eq_of_le hs.length_le with hlt | hfull
      · obtain ⟨hfault, -⟩ | ⟨s'', hs'', hkept⟩ := hs.add (A := A) (v := v) hlt hsize
        · rw [hfault] at hadd
          cases hadd
        · rw [hs''] at hadd
          have hrest := ih hkept hadd
          rwa [List.append_assoc] at hrest
      · obtain ⟨e, he⟩ := hs.add_full (A := A) (v := v) hfull
        rw [he] at hadd
        cases hadd

/-- If the block was allocated in full, so many can be added. -/
theorem NotGrown.addAll_ok (hs : NotGrown name size vs s) (hbytes : size * name.sizeof < 2 ^ 64)
    (hlen : vs.length + ws.length ≤ size) : ∃ s', Types.addAll A name s ws = .ok s' := by
  have hsize : size < 2 ^ 64 := by
    have := Nat.mul_le_mul_left size (four_le_sizeof name)
    omega
  induction ws generalizing s vs with
  | nil => exact ⟨s, rfl⟩
  | cons v ws ih =>
      rw [List.length_cons] at hlen
      obtain ⟨-, hfault⟩ | ⟨s'', hs'', hkept⟩ := hs.add (A := A) (v := v) (by omega) hsize
      · rw [Nat.mod_eq_of_lt hbytes] at hfault
        exact absurd (Nat.mul_le_mul_right name.sizeof (by omega : vs.length + 1 ≤ size))
          (Nat.not_le_of_lt hfault)
      · obtain ⟨s', hs'⟩ := ih hkept (by
          rw [List.length_append, List.length_singleton]
          omega)
        exact ⟨s', by rw [Types.addAll, hs'']; exact hs'⟩

/-- Whoever adds one has not added more than that either. -/
theorem NotGrown.add_ok (hs : NotGrown name size vs s) (hsize : size < 2 ^ 64)
    (hadd : camioListAdd A name s v = .ok s') : NotGrown name size (vs ++ [v]) s' := by
  refine hs.addAll (A := A) hsize ?_
  rw [Types.addAll, hadd]
  rfl

/-- Setting the count to zero removes what is in the list. -/
theorem NotGrown.clear (hs : NotGrown name size vs s) :
    NotGrown name size [] ({ s.1 with count := 0 }, s.2) := by
  obtain ⟨b, hb, hbytes, -⟩ := hs.block
  exact ⟨hs.size_eq, rfl, Nat.zero_le _, b, hb, hbytes, fun i hi => absurd hi (Nat.not_lt_zero i)⟩

/-- It keeps nothing else. -/
theorem NotGrown.eq_of_keeps (hs : NotGrown name size vs s) (hkeeps : Keeps name ws s) :
    ws = vs := by
  obtain ⟨b, hb, -, hobjects⟩ := hs.block
  have hlength : ws.length = vs.length := hkeeps.count_eq.symm.trans hs.count_eq
  refine List.ext_getElem? fun i => ?_
  by_cases hi : i < ws.length
  · rw [← hkeeps.items i hi, ← hobjects i (hlength ▸ hi), Heap.load, hb]
    rfl
  · rw [List.getElem?_eq_none (Nat.le_of_not_lt hi),
      List.getElem?_eq_none (hlength ▸ Nat.le_of_not_lt hi)]

theorem NotGrown.keeps (hs : NotGrown name size vs s) (hbytes : size * name.sizeof < 2 ^ 64) :
    Keeps name vs s := by
  obtain ⟨b, hb, hlen, hobjects⟩ := hs.block
  rw [Nat.mod_eq_of_lt hbytes] at hlen
  refine ⟨⟨b, hb, ?_⟩, ?_, hs.count_eq, fun i hi => ?_⟩
  · have hall : s.1.size * name.sizeof = b.bytes := by rw [hs.size_eq, hlen]
    exact Nat.le_of_eq hall
  · rw [hs.count_eq, hs.size_eq]
    exact hs.length_le
  · rw [Heap.load, hb]
    exact hobjects i hi

/-- What `listOf` returns has not grown. -/
theorem listOf_notGrown (hsize : size < 2 ^ 64) (hlist : listOf A name h size vs = .ok s) :
    NotGrown name size vs s := by
  obtain ⟨s₀, hinit, hadd⟩ := bind_eq_ok_iff.mp hlist
  exact (camioListInit_notGrown hinit).addAll hsize hadd

/-- `camio_list_init` returns or reports that there is no memory. -/
theorem camioListInit_error {e : ListFault} (hinit : camioListInit A name h size = .error e) :
    ∃ e', e = .exit e' := by
  simp only [camioListInit] at hinit
  split at hinit
  next => exact ⟨_, (Except.error.inj hinit).symm⟩
  next => cases hinit

end NotGrown

/-- Unless there is no memory, a list keeps what is added to it exactly if its block was
    allocated in full and no more is added than its initial size. -/
theorem listOf_keeps_iff {A : BlockAllocator α} {name : ListName} {h : Heap α} {size : Nat}
    {vs : List α} (hsize : size < 2 ^ 64)
    (hreturned : ∀ e, listOf A name h size vs ≠ .error (.exit e)) :
    (∃ s, listOf A name h size vs = .ok s ∧ Keeps name vs s) ↔
      size * name.sizeof < 2 ^ 64 ∧ vs.length ≤ size := by
  constructor
  · rintro ⟨s, hlist, hkeeps⟩
    have hs := listOf_notGrown hsize hlist
    obtain ⟨b, hb, hbytes, -⟩ := hs.block
    obtain ⟨b', hb', hle⟩ := hkeeps.live
    obtain rfl := Option.some.inj (hb'.symm.trans hb)
    rw [hs.size_eq, hbytes] at hle
    refine ⟨?_, hs.length_le⟩
    have hlt := Nat.mod_lt (size * name.sizeof) (Nat.two_pow_pos 64)
    omega
  · rintro ⟨hbytes, hlen⟩
    cases hinit : camioListInit A name h size with
    | error e =>
        obtain ⟨e', rfl⟩ := camioListInit_error hinit
        exact absurd (by rw [listOf, hinit]; rfl) (hreturned e')
    | ok s₀ =>
        have hs₀ := camioListInit_notGrown hinit
        obtain ⟨s, hs⟩ : ∃ s, addAll A name s₀ vs = .ok s :=
          hs₀.addAll_ok hbytes (by rwa [List.length_nil, Nat.zero_add])
        refine ⟨s, ?_, (hs₀.addAll hsize hs).keeps hbytes⟩
        rw [listOf, hinit]
        exact hs

theorem listOf_keeps_two : ∃ s,
    listOf (.inPlace Nat) .uint64 (fun _ => none) 2 [5, 6] = .ok s ∧ Keeps .uint64 [5, 6] s :=
  (@listOf_keeps_iff Nat (.inPlace Nat) .uint64 (fun _ => none) 2 [5, 6] (by decide)
    (fun e h => by cases h)).mpr ⟨by decide, by decide⟩

/-- Of two numbers in a list of initial size 1, the second is stored outside of a block that
    has shrunk to two bytes. -/
theorem listOf_keeps_fails :
    ¬ ∀ (A : BlockAllocator Nat) (name : ListName) (h : Heap Nat) (size : Nat) (vs : List Nat),
      1 ≤ size → size < 2 ^ 64 → (∀ e, listOf A name h size vs ≠ .error (.exit e)) →
      ∃ s, listOf A name h size vs = .ok s ∧ Keeps name vs s := by
  intro hall
  have hfault : listOf (.inPlace Nat) .uint64 (fun _ => none) 1 [5, 6] = .error .wildStore := rfl
  obtain ⟨s, hlist, -⟩ := hall (.inPlace Nat) .uint64 (fun _ => none) 1 [5, 6] (by decide)
    (by decide) (fun e h => by
      rw [hfault] at h
      cases h)
  rw [hfault] at hlist
  cases hlist

end Camio.Types
