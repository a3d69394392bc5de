import Mathlib.Data.List.Forall2
import ShaderIR.Proofs.Machine.State

/-!
# Addresses inside aggregates

An address steps over its base and then selects in nested arrays. Its type is found from the
number of its indices, and its offset from their values. The one has a type that can be pointed
to exactly if the other is found. Selections within the arrays stay inside the base, and two
different ones have no cell in common.
-/

set_option autoImplicit false

namespace ShaderIR

namespace Ty

def size : Ty → Nat
  | array elem len => len * elem.size
  | _ => 1

/-- How many cells the indices inside an aggregate skip, as far as there is something to select
in. -/
def skipped : Ty → List Nat → Nat
  | array elem _, k :: ks => k * elem.size + elem.skipped ks
  | _, _ => 0

/-- How many cells the indices of an address lead on. -/
def stepped (t : Ty) : List Nat → Nat
  | [] => 0
  | k :: ks => k * t.size + t.skipped ks

/-- Every index selects an element that its array has. -/
def Within : Ty → List Nat → Prop
  | _, [] => True
  | array elem len, k :: ks => k < len ∧ elem.Within ks
  | _, _ :: _ => False

/-- A size or an offset that is needed on the way does not fit its word. -/
def Overflows (base : Ty) (o : Nat) : List Nat → Prop
  | [] => False
  | k :: ks => ∃ t, base = pointer t ∧
    (t.cells? = none ∨ wordLimit ≤ o + t.stepped (k :: ks))

theorem overflows_cons {t : Ty} {o k : Nat} {ks : List Nat} :
    (pointer t).Overflows o (k :: ks) ↔
      t.cells? = none ∨ wordLimit ≤ o + t.stepped (k :: ks) :=
  ⟨fun ⟨_, ht, h⟩ => by cases ht; exact h, fun h => ⟨t, rfl, h⟩⟩

theorem not_overflows {base : Ty} {o : Nat} {ks : List Nat} (h : ∀ t, base ≠ pointer t) :
    ¬base.Overflows o ks := by
  cases ks with
  | nil => exact id
  | cons k ks => exact fun ⟨t, ht, _⟩ => h t ht

theorem skipped_nil (t : Ty) : t.skipped [] = 0 := by cases t <;> rfl

theorem stepped_zero (t : Ty) (ks : List Nat) : t.stepped (0 :: ks) = t.skipped ks := by
  rw [stepped, Nat.zero_mul, Nat.zero_add]

theorem descend_of_address {base : Ty} {n : Nat} (h : address (some base) n ≠ void) :
    ∃ t u, base = pointer t ∧ t.descend (n - 1) = some u ∧
      address (some base) n = pointer u := by
  cases hu : ((some base).bind pointee?).bind (descend (n - 1)) with
  | none => exact absurd (by rw [address, hu]) h
  | some u =>
    obtain ⟨t, ht, hdescend⟩ := Option.bind_eq_some_iff.mp hu
    exact ⟨t, u, pointee?_eq_some.mp ht, hdescend, by rw [address, hu]⟩

theorem cells?_eq_some {t : Ty} {c : Nat} (h : t.cells? = some c) : c = t.size := by
  induction t generalizing c with
  | array elem len ih =>
    obtain ⟨d, hd, h⟩ := Option.bind_eq_some_iff.mp h
    rw [size, ← ih hd]
    exact (mulWord?_eq_some.mp h).2.symm
  | _ => exact (Option.some.inj h).symm

theorem cells?_descend {t u : Ty} {n : Nat} (h : t.descend n = some u)
    (hc : t.cells?.isSome = true) : u.cells? = some u.size := by
  induction n generalizing t with
  | zero =>
    cases h
    obtain ⟨c, hc⟩ := Option.isSome_iff_exists.mp hc
    rw [hc, cells?_eq_some hc]
  | succ n ih =>
    cases t with
    | array elem len =>
      obtain ⟨c, hc⟩ := Option.isSome_iff_exists.mp hc
      obtain ⟨d, hd, -⟩ := Option.bind_eq_some_iff.mp hc
      exact ih h (by rw [hd]; rfl)
    | _ => cases h

section Flattening

variable {t u : Ty} {ks ls : List Nat}

/-- Selections within the arrays skip whole elements of the base, and leave room for what they
select. -/
theorem skipped_add_size_le (hu : t.descend ks.length = some u) (hks : t.Within ks) :
    t.skipped ks + u.size ≤ t.size := by
  induction ks generalizing t with
  | nil =>
    cases hu
    simp [skipped]
  | cons k ks ih =>
    cases t with
    | array elem len =>
      have hrest : elem.skipped ks + u.size ≤ elem.size := ih hu hks.2
      have hlen : (k + 1) * elem.size ≤ len * elem.size := Nat.mul_le_mul_right _ hks.1
      rw [skipped, size]
      rw [Nat.succ_mul] at hlen
      omega
    | _ => cases hu

/-- Of two different selections, one ends before the other begins: at the first index where they
differ, one selects an earlier element. -/
theorem skipped_disjoint (hu : t.descend ks.length = some u) (hlen : ls.length = ks.length)
    (hks : t.Within ks) (hls : t.Within ls) (hne : ks ≠ ls) :
    t.skipped ks + u.size ≤ t.skipped ls ∨ t.skipped ls + u.size ≤ t.skipped ks := by
  induction ks generalizing t ls with
  | nil => exact absurd (List.length_eq_zero_iff.mp hlen).symm hne
  | cons k ks ih =>
    obtain ⟨l, ls, rfl⟩ := List.exists_cons_of_length_eq_add_one hlen
    have hlen' : ls.length = ks.length := Nat.succ.inj hlen
    cases t with
    | array elem len =>
      have hu' : elem.descend ls.length = some u := by rw [hlen']; exact hu
      have hk : elem.skipped ks + u.size ≤ elem.size := skipped_add_size_le hu hks.2
      have hl : elem.skipped ls + u.size ≤ elem.size := skipped_add_size_le hu' hls.2
      rw [skipped, skipped]
      rcases Nat.lt_trichotomy k l with hlt | rfl | hlt
      · have := Nat.mul_le_mul_right elem.size hlt
        rw [Nat.succ_mul] at this
        omega
      · have := ih (t := elem) hu hlen' hks.2 hls.2 fun heq => hne (heq ▸ rfl)
        omega
      · have := Nat.mul_le_mul_right elem.size hlt
        rw [Nat.succ_mul] at this
        omega
    | _ => cases hu

end Flattening

end Ty

namespace Machine

variable {m : Machine}

def Indexes (m : Machine) (vs : List ValueId) (ks : List Nat) : Prop :=
  List.Forall₂ (fun v (k : Nat) => ∃ n : Int64, m.values[v]? = some (.int n) ∧ n.toInt = k) vs ks

theorem index_eq_ok {v : ValueId} {n : Int64} (h : m.values[v]? = some (.int n))
    (h0 : 0 ≤ n.toInt) : m.index v = .ok n.toInt.toNat :=
  bind_eq_ok.mpr ⟨n, int_eq_ok.mpr h, by rw [if_pos h0]⟩

theorem advance_eq_ok (offset n : Nat) {c : Nat} {t : Ty} (hc : t.cells? = some c)
    (hlt : offset + n * c < wordLimit) : advance offset n t = .ok (offset + n * c) := by
  have hmul : mulWord? n c = some (n * c) := mulWord?_eq_some.mpr ⟨by omega, rfl⟩
  have hadd : addWord? offset (n * c) = some (offset + n * c) := addWord?_eq_some.mpr ⟨hlt, rfl⟩
  rw [advance, hc, Option.bind_some, hmul, Option.bind_some, hadd]

theorem advance_eq_overflow (offset n : Nat) {t : Ty}
    (h : t.cells? = none ∨ wordLimit ≤ offset + n * t.size) :
    advance offset n t = .error (.violation .overflow) := by
  have hnone : (t.cells?.bind (mulWord? n)).bind (addWord? offset) = none := by
    rw [Option.eq_none_iff_forall_ne_some]
    intro o ho
    obtain ⟨p, hp, ho⟩ := Option.bind_eq_some_iff.mp ho
    obtain ⟨c, hc, hp⟩ := Option.bind_eq_some_iff.mp hp
    obtain ⟨-, rfl⟩ := mulWord?_eq_some.mp hp
    obtain ⟨hlt, -⟩ := addWord?_eq_some.mp ho
    rw [Ty.cells?_eq_some hc] at hlt
    rcases h with h | h
    · rw [h] at hc
      cases hc
    · omega
  rw [advance, hnone]

theorem descend_of_select {t : Ty} {o o' : Nat} {vs : List ValueId}
    (h : m.select t o vs = .ok o') : ∃ u, t.descend vs.length = some u := by
  induction vs generalizing t o with
  | nil => exact ⟨t, rfl⟩
  | cons v vs ih =>
    rw [select] at h
    obtain ⟨n, -, h⟩ := bind_eq_ok.mp h
    cases t with
    | array elem len =>
      obtain ⟨o₁, -, h⟩ := bind_eq_ok.mp h
      exact ih h
    | _ => cases h

theorem address_of_offset {base : Ty} {o o' : Nat} {vs : List ValueId}
    (h : m.offset base o vs = .ok o') : ∃ t u, base = .pointer t ∧
      t.descend (vs.length - 1) = some u ∧ Ty.address (some base) vs.length = .pointer u := by
  unfold offset at h
  split at h
  · cases h
  · next t ht =>
    obtain rfl := Ty.pointee?_eq_some.mp ht
    have hdescend : ∃ u, t.descend (vs.length - 1) = some u := by
      cases vs with
      | nil => exact ⟨t, rfl⟩
      | cons v vs =>
        obtain ⟨n, -, h⟩ := bind_eq_ok.mp h
        obtain ⟨o₁, -, h⟩ := bind_eq_ok.mp h
        exact descend_of_select h
    obtain ⟨u, hu⟩ := hdescend
    refine ⟨t, u, rfl, hu, ?_⟩
    rw [Ty.address, Option.bind_some, ht, Option.bind_some, hu]

theorem offset_not_pointer {base : Ty} (h : base.pointee? = none) (o : Nat) (vs : List ValueId) :
    m.offset base o vs = .error (.error (.invalidPointer (.baseType base))) := by
  rw [offset, h]

theorem index_of_toInt {v : ValueId} {n : Int64} {k : Nat} (h : m.values[v]? = some (.int n))
    (hk : n.toInt = k) : m.index v = .ok k := by
  rw [index_eq_ok h (by omega), hk, Int.toNat_natCast]

section Step

variable {v : ValueId} {k : Nat} (hk : m.index v = .ok k) (o : Nat) (vs : List ValueId)
include hk

theorem select_array (elem : Ty) (len : Nat) :
    m.select (.array elem len) o (v :: vs) =
      (advance o k elem >>= fun o' => m.select elem o' vs) := by
  rw [select, hk]
  rfl

theorem select_not_array {t : Ty} (ht : ∀ elem len, t ≠ .array elem len) :
    m.select t o (v :: vs) = .error (.error (.invalidPointer (.notArray t))) := by
  rw [select, hk]
  cases t with
  | array elem len => exact absurd rfl (ht elem len)
  | _ => rfl

theorem offset_cons (t : Ty) :
    m.offset (.pointer t) o (v :: vs) = (advance o k t >>= fun o' => m.select t o' vs) := by
  rw [offset]
  exact congrArg (· >>= fun n => advance o n t >>= fun o' => m.select t o' vs) hk

end Step

section Offset

variable {vs : List ValueId} {ks : List Nat} (hks : m.Indexes vs ks)
include hks

theorem select_eq_ok {t u : Ty} {o : Nat} (hu : t.descend vs.length = some u)
    (hc : t.cells?.isSome = true) (hlt : o + t.skipped ks < wordLimit) :
    m.select t o vs = .ok (o + t.skipped ks) := by
  induction hks generalizing t o with
  | nil => rw [Ty.skipped_nil, Nat.add_zero, select]
  | @cons v k vs ks hv hrest ih =>
    obtain ⟨n, hn, hk⟩ := hv
    cases t with
    | array elem len =>
      have helem : elem.cells? = some elem.size := Ty.cells?_descend (n := 1) rfl hc
      rw [Ty.skipped, ← Nat.add_assoc] at hlt ⊢
      rw [select_array (index_of_toInt hn hk)]
      exact bind_eq_ok.mpr ⟨_, advance_eq_ok o k helem (by omega),
        ih hu (by rw [helem]; rfl) hlt⟩
    | _ => cases hu

theorem select_eq_overflow {t : Ty} {o : Nat} (ho : o < wordLimit)
    (hc : t.cells?.isSome = true) :
    m.select t o vs = .error (.violation .overflow) ↔ wordLimit ≤ o + t.skipped ks := by
  induction hks generalizing t o with
  | nil =>
    rw [Ty.skipped_nil, select]
    exact iff_of_false nofun (Nat.not_le.mpr ho)
  | @cons v k vs ks hv hrest ih =>
    obtain ⟨n, hn, hk⟩ := hv
    have hindex := index_of_toInt hn hk
    cases t with
    | array elem len =>
      have helem : elem.cells? = some elem.size := Ty.cells?_descend (n := 1) rfl hc
      rw [select_array hindex, Ty.skipped, ← Nat.add_assoc]
      rcases Nat.lt_or_ge (o + k * elem.size) wordLimit with hlt | hge
      · rw [advance_eq_ok o k helem hlt]
        exact ih hlt (by rw [helem]; rfl)
      · rw [advance_eq_overflow o k (Or.inr hge)]
        exact iff_of_true rfl (Nat.le_add_right_of_le hge)
    | _ =>
      rw [select_not_array hindex]
      · exact iff_of_false nofun (Nat.not_le.mpr ho)
      · exact nofun

theorem offset_eq_overflow (base : Ty) (o : Nat) :
    m.offset base o vs = .error (.violation .overflow) ↔ base.Overflows o ks := by
  cases base with
  | pointer t =>
    cases hks with
    | nil => exact iff_of_false nofun id
    | @cons v k vs ks hv hrest =>
      obtain ⟨n, hn, hk⟩ := hv
      rw [Ty.overflows_cons, Ty.stepped, ← Nat.add_assoc, offset_cons (index_of_toInt hn hk)]
      cases hc : t.cells? with
      | none =>
        rw [advance_eq_overflow o k (Or.inl hc)]
        exact iff_of_true rfl (Or.inl rfl)
      | some c =>
        obtain rfl := Ty.cells?_eq_some hc
        rw [or_iff_right nofun]
        rcases Nat.lt_or_ge (o + k * t.size) wordLimit with hlt | hge
        · rw [advance_eq_ok o k hc hlt]
          exact select_eq_overflow hrest hlt (by rw [hc]; rfl)
        · rw [advance_eq_overflow o k (Or.inr hge)]
          exact iff_of_true rfl (Nat.le_add_right_of_le hge)
  | _ =>
    rw [offset_not_pointer rfl]
    exact iff_of_false nofun (Ty.not_overflows nofun)

theorem offset_eq_ok {t u : Ty} {o : Nat} (hu : t.descend (vs.length - 1) = some u)
    (hroom : ¬(Ty.pointer t).Overflows o ks) :
    m.offset (.pointer t) o vs = .ok (o + t.stepped ks) := by
  cases hks with
  | nil => rfl
  | @cons v k vs ks hv hrest =>
    obtain ⟨n, hn, hk⟩ := hv
    rw [Ty.overflows_cons, not_or, Ty.stepped, ← Nat.add_assoc] at hroom
    obtain ⟨c, hc⟩ := Option.ne_none_iff_exists'.mp hroom.1
    obtain rfl := Ty.cells?_eq_some hc
    rw [offset_cons (index_of_toInt hn hk), Ty.stepped, ← Nat.add_assoc]
    exact bind_eq_ok.mpr ⟨_, advance_eq_ok o k hc (by omega),
      select_eq_ok hrest hu (by rw [hc]; rfl) (by omega)⟩

/-- The typing of an address and its stepping agree. Where there is room, an offset is found
exactly if the address has a type that can be pointed to. With a first index of zero and all others
within their arrays, the cells at the offset are cells of the base, and any other such indices lead
to other cells. -/
theorem offset_agrees_address (base : Ty) (o : Nat) :
    (m.offset base o vs = .error (.violation .overflow) ↔ base.Overflows o ks) ∧
    (¬base.Overflows o ks →
      ((∃ o', m.offset base o vs = .ok o') ↔ Ty.address (some base) vs.length ≠ .void)) ∧
    ∀ t u js, base = .pointer t → Ty.address (some base) vs.length = .pointer u →
      ks = 0 :: js → t.Within js → ¬base.Overflows o ks →
      ∃ c d o', t.cells? = some c ∧ u.cells? = some d ∧ m.offset base o vs = .ok o' ∧
        o ≤ o' ∧ o' + d ≤ o + c ∧
        ∀ (m' : Machine) (vs' : List ValueId) (js' : List Nat), m'.Indexes vs' (0 :: js') →
          js'.length = js.length → js' ≠ js → t.Within js' → ¬base.Overflows o (0 :: js') →
          ∃ o'', m'.offset base o vs' = .ok o'' ∧ (o' + d ≤ o'' ∨ o'' + d ≤ o') := by
  refine ⟨offset_eq_overflow hks base o, fun hroom => ⟨fun ⟨o', h⟩ => ?_, fun h => ?_⟩, ?_⟩
  · obtain ⟨t, u, -, -, hu⟩ := address_of_offset h
    rw [hu]
    nofun
  · obtain ⟨t, u, rfl, hu, -⟩ := Ty.descend_of_address h
    exact ⟨_, offset_eq_ok hks hu hroom⟩
  · rintro t u js rfl haddr rfl hjs hroom
    obtain ⟨_, _, ht, hu, hpointer⟩ := Ty.descend_of_address (by rw [haddr]; nofun)
    cases ht
    cases hpointer.symm.trans haddr
    have hvs : vs.length - 1 = js.length := by rw [hks.length_eq]; rfl
    have hlen : t.descend js.length = some u := hvs ▸ hu
    obtain ⟨c, hc⟩ := Option.ne_none_iff_exists'.mp (not_or.mp (Ty.overflows_cons.not.mp hroom)).1
    obtain rfl := Ty.cells?_eq_some hc
    have hd := Ty.cells?_descend hlen (by rw [hc]; rfl)
    have hle := Ty.skipped_add_size_le hlen hjs
    refine ⟨t.size, u.size, _, hc, hd, offset_eq_ok hks hu hroom, Nat.le_add_right .., ?_, ?_⟩
    · rw [Ty.stepped_zero]
      omega
    · intro m' vs' js' hks' hlen' hne hjs' hroom'
      have hvs' : vs'.length - 1 = js'.length := by rw [hks'.length_eq]; rfl
      refine ⟨_, offset_eq_ok hks' (by rw [hvs', hlen']; exact hlen) hroom', ?_⟩
      rw [Ty.stepped_zero, Ty.stepped_zero]
      have := Ty.skipped_disjoint hlen hlen' hjs hjs' hne.symm
      omega

end Offset

def counting : Machine :=
  initial.bindAll [(⟨0⟩, .int 0), (⟨1⟩, .int 1), (⟨2⟩, .int 2)]

theorem indexes_counting : counting.Indexes [⟨0⟩, ⟨1⟩, ⟨2⟩] [0, 1, 2] :=
  .cons ⟨0, by simp [counting, bindAll], by decide⟩
    (.cons ⟨1, by simp [counting, bindAll], by decide⟩
      (.cons ⟨2, by simp [counting, bindAll], by decide⟩ .nil))

/-- The last element of the second row of a table, and the last one of its first row. -/
theorem offsets_in_table :
    let table : Ty := .pointer (.array (.array .i32 3) 2)
    (∃ o', counting.offset table 6 [⟨0⟩, ⟨1⟩, ⟨2⟩] = .ok o') ∧
    ∃ c d o', (Ty.array (.array .i32 3) 2).cells? = some c ∧ Ty.cells? .i32 = some d ∧
      counting.offset table 6 [⟨0⟩, ⟨1⟩, ⟨2⟩] = .ok o' ∧ 6 ≤ o' ∧ o' + d ≤ 6 + c ∧
      ∃ o'', counting.offset table 6 [⟨0⟩, ⟨0⟩, ⟨2⟩] = .ok o'' ∧ (o' + d ≤ o'' ∨ o'' + d ≤ o') := by
  intro table
  have hroom : ∀ i j, i < 2 → j < 3 → ¬table.Overflows 6 [0, i, j] := by
    intro i j hi hj h
    rcases Ty.overflows_cons.mp h with h | h
    · cases h
    · simp only [wordLimit, Ty.stepped, Ty.skipped, Ty.size] at h
      omega
  obtain ⟨-, hiff, hcells⟩ := offset_agrees_address indexes_counting table 6
  obtain ⟨c, d, o', hc, hd, ho, hle, hend, hother⟩ := hcells _ .i32 [1, 2] rfl rfl rfl
    ⟨by decide, by decide, trivial⟩ (hroom 1 2 (by decide) (by decide))
  refine ⟨(hiff (hroom 1 2 (by decide) (by decide))).mpr nofun, c, d, o', hc, hd, ho, hle, hend, ?_⟩
  refine hother counting [⟨0⟩, ⟨0⟩, ⟨2⟩] [0, 2] ?_ rfl (by decide)
    ⟨by decide, by decide, trivial⟩ (hroom 0 2 (by decide) (by decide))
  cases indexes_counting with
  | cons hzero hrest => exact .cons hzero (.cons hzero (by cases hrest with | cons _ h => exact h))

end Machine

end ShaderIR
