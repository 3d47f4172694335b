import BareMetal.User.Ulib
import Mathlib.Data.Nat.Digits.Lemmas

/-!
# Numbers as text

`itoa` writes the decimal digits of a number, the most significant first, and a NUL
(`itoa_digits`), and never leaves its buffer. `atoi` reads them back; it adds a digit's code before
it subtracts that of `0`, so it overflows for the 48 largest numbers (`atoi_digits`,
`atoi_overflow`, `itoa_atoi_iff`).
-/

namespace BareMetal.Ulib

open C

/-- The code of a digit. -/
def digitChar (d : Nat) : UInt8 := UInt8.ofNat (48 + d)

/-- The value of a list of digits, the most significant first, read after `n`. -/
def readFrom (n : Nat) (ds : List Nat) : Nat := ds.foldl (fun n d => d + 10 * n) n

/-! ## C -/

section
variable {α β : Type}

@[simp] theorem ok_bind (a : α) (f : α → C β) : ((.ok a : C α) >>= f) = f a := rfl

@[simp] theorem error_bind (e : Undefined) (f : α → C β) : ((.error e : C α) >>= f) = .error e := rfl

end

theorem int_ok {x : Int} (h : -INT_MAX - 1 ≤ x) (h' : x ≤ INT_MAX) : C.int x = .ok x :=
  if_pos ⟨h, h'⟩

theorem int_overflow {x : Int} (h : INT_MAX < x) : C.int x = .error .overflow :=
  if_neg fun h' => by omega

theorem store_append {α : Type} (l r : List α) (x y : α) :
    C.store (l ++ x :: r) l.length y = .ok (l ++ y :: r) := by
  unfold C.store
  rw [if_pos (by simp only [List.length_append, List.length_cons]; omega), Int.toNat_natCast,
    List.set_append_right _ _ (Nat.le_refl _), Nat.sub_self, List.set_cons_zero]

theorem load_append {α : Type} (l r : List α) (x : α) :
    C.load (l ++ x :: r) l.length = .ok x := by
  unfold C.load
  rw [if_pos (by omega), Int.toNat_natCast, List.getElem?_append_right (Nat.le_refl _),
    Nat.sub_self]
  rfl

theorem digitChar_toNat {d : Nat} (h : d < 10) : (digitChar d).toNat = 48 + d := by
  unfold digitChar
  rw [UInt8.toNat_ofNat_of_lt' (by simp [UInt8.size]; omega)]

theorem char_digit {a : Nat} : char (48 + (a : Int).tmod 10) = digitChar (a % 10) := by
  unfold char digitChar
  congr 1
  rw [Int.tmod_eq_emod_of_nonneg (Int.natCast_nonneg a)]
  omega

/-! ## Writing -/

/-- The digits of a positive number. -/
theorem digits_pos {n : Nat} (h : 0 < n) : Nat.digits 10 n = n % 10 :: Nat.digits 10 (n / 10) :=
  Nat.digits_def' (by decide) h

/-- **The digits** go to the buffer, the least significant first. -/
theorem itoaDigits_eq (n : Nat) : ∀ (l r : List (Option UInt8)), l.length + r.length = 10 →
    (Nat.digits 10 n).length ≤ r.length →
    itoaDigits n (l ++ r) l.length = .ok (some
      (l ++ (((Nat.digits 10 n).map digitChar).map some ++
          r.drop (Nat.digits 10 n).length), (l.length + (Nat.digits 10 n).length : Nat))) := by
  induction n using Nat.strong_induction_on with
  | h n ih =>
    intro l r hlen hfit
    unfold itoaDigits
    by_cases h0 : n = 0
    · subst h0
      simp
      rfl
    · have hpos : 0 < n := Nat.pos_of_ne_zero h0
      rw [digits_pos hpos] at hfit ⊢
      cases r with
      | nil => exact absurd hfit (Nat.not_succ_le_zero _)
      | cons x r =>
        have hmax : INT_MAX = 2147483647 := rfl
        simp only [List.length_cons] at hlen hfit
        have hdiv : (n : Int).tdiv 10 = (n / 10 : Nat) := by
          rw [Int.tdiv_eq_ediv_of_nonneg (Int.natCast_nonneg n)]
          rfl
        have hrest := ih (n / 10) (by omega) (l ++ [some (digitChar (n % 10))]) r
          (by rw [List.length_append, List.length_singleton]; omega) (by omega)
        rw [List.append_assoc, List.singleton_append, List.length_append, List.length_singleton,
          Nat.cast_add, Nat.cast_one, ← hdiv] at hrest
        rw [if_pos (by omega), if_neg (by omega), char_digit, store_append, ok_bind,
          int_ok (by omega) (by omega), ok_bind, hrest, List.map_cons, List.map_cons, List.length_cons,
          List.drop_succ_cons, List.append_assoc]
        congr 3
        omega

/-- **The text** is the buffer reversed. -/
theorem itoaCopy_eq {buff : List (Option UInt8)} {len : Nat} (xs : List UInt8) :
    ∀ (ys s : List UInt8) (rest : List (Option UInt8)),
    buff = xs.map some ++ (ys.map some ++ rest) → len = xs.length + ys.length → len ≤ 10 →
    xs.length ≤ s.length →
    itoaCopy buff len xs.length ys.length (ys.reverse ++ s) =
      .ok ((xs ++ ys).reverse ++ s.drop xs.length) := by
  induction xs using List.reverseRecOn with
  | nil =>
    intro ys s rest _ _ _ _
    rfl
  | append_singleton xs x ih =>
    intro ys s rest hbuff hlen h10 hs
    have hn : (xs ++ [x]).length = xs.length + 1 := List.length_append
    have hmax : INT_MAX = 2147483647 := rfl
    rw [hn] at hlen hs
    cases s with
    | nil => exact absurd hs (Nat.not_succ_le_zero _)
    | cons y s =>
      rw [List.map_append, List.append_assoc, List.map_singleton, List.singleton_append] at hbuff
      have hrest := ih (x :: ys) s rest hbuff (by rw [List.length_cons]; omega) h10
        (Nat.le_of_succ_le_succ hs)
      have hload := load_append (xs.map some) (ys.map some ++ rest) (some x)
      rw [List.length_map, ← hbuff] at hload
      have hstore := store_append ys.reverse s y x
      rw [List.length_reverse] at hstore
      have hlast : (len : Int) - ys.length - 1 = xs.length := by omega
      rw [hn, itoaCopy, int_ok (by omega) (by omega), ok_bind, int_ok (by omega) (by omega), ok_bind,
        hlast, hload, ok_bind, C.initialized, ok_bind, hstore, ok_bind, int_ok (by omega) (by omega),
        ok_bind]
      rw [List.reverse_cons, List.append_assoc, List.singleton_append, List.length_cons,
        Nat.cast_add, Nat.cast_one] at hrest
      rw [hrest, List.append_assoc, List.singleton_append, List.drop_succ_cons]

/-! ## Both together -/

/-- `itoa` of 0. -/
theorem itoa_zero {s : List UInt8} (hs : 1 < s.length) :
    itoa (0 : Nat) s = .ok ((1 : Nat), digitChar 0 :: 0 :: s.drop 2) := by
  obtain ⟨x, y, s, rfl⟩ : ∃ x y t, s = x :: y :: t := by
    cases s with
    | nil => exact absurd hs (Nat.not_lt_zero 1)
    | cons x s =>
      cases s with
      | nil => exact absurd hs (Nat.lt_irrefl 1)
      | cons y s => exact ⟨x, y, s, rfl⟩
  have h1 := store_append [] (y :: s) x 48
  have h2 := store_append [(48 : UInt8)] s y 0
  simp only [List.nil_append, List.length_nil, Nat.cast_zero] at h1
  simp only [List.singleton_append, List.length_singleton, Nat.cast_one] at h2
  unfold itoa strcpy
  rw [if_pos Nat.cast_zero, strcpyLoop, h1, ok_bind, if_pos (by decide), strcpyLoop, zero_add, h2,
    ok_bind]
  rfl

/-- `itoa` of a positive number. -/
theorem itoa_digits {n : Nat} (hpos : 0 < n) (hmax : n ≤ 2147483647) {s : List UInt8}
    (hs : (Nat.digits 10 n).length < s.length) :
    itoa n s = .ok ((Nat.digits 10 n).length,
      (Nat.digits 10 n).reverse.map digitChar ++ 0 :: s.drop ((Nat.digits 10 n).length + 1)) := by
  have h10 : (Nat.digits 10 n).length ≤ 10 := (Nat.digits_length_le_iff (by decide) n).2 (by omega)
  have hdig := itoaDigits_eq n [] (List.replicate 10 none) (by simp) (by simpa using h10)
  simp only [List.nil_append, List.length_nil, Nat.zero_add, Nat.cast_zero] at hdig
  have hcopy := itoaCopy_eq ((Nat.digits 10 n).map digitChar) [] s
    ((List.replicate 10 none).drop (Nat.digits 10 n).length) rfl rfl (by simpa using h10)
    (by rw [List.length_map]; omega)
  simp only [List.length_map, List.length_nil, Nat.add_zero, Nat.cast_zero, List.reverse_nil,
    List.nil_append, List.append_nil, List.map_nil] at hcopy
  have hend := store_append ((Nat.digits 10 n).map digitChar).reverse
    (s.drop ((Nat.digits 10 n).length + 1)) s[(Nat.digits 10 n).length] 0
  rw [← List.drop_eq_getElem_cons hs, List.length_reverse, List.length_map] at hend
  unfold itoa
  rw [if_neg (by omega), hdig, ok_bind]
  dsimp only
  rw [Int.toNat_natCast, hcopy, ok_bind, hend, ok_bind, List.map_reverse]
  rfl

/-- `atoi` at a digit. -/
theorem atoiLoop_digit {d : Nat} (h : d < 10) (n : Int) (s : List UInt8) :
    atoiLoop n (digitChar d :: s) = (do
      let n ← C.int (n * 10)
      let n ← C.int (n + (48 + d : Nat))
      let n ← C.int (n - 48)
      atoiLoop n s) := by
  have hd := digitChar_toNat h
  rw [atoiLoop, if_pos, hd]
  rw [UInt8.le_iff_toNat_le, UInt8.le_iff_toNat_le, hd, show (48 : UInt8).toNat = 48 from rfl,
    show (57 : UInt8).toNat = 57 from rfl]
  omega

theorem atoiLoop_nul (n : Int) (s : List UInt8) : atoiLoop n (0 :: s) = .ok n :=
  if_neg (by decide)

theorem le_readFrom (ds : List Nat) : ∀ n, n ≤ readFrom n ds := by
  induction ds with
  | nil => exact fun n => Nat.le_refl n
  | cons d ds ih =>
    intro n
    have := ih (d + 10 * n)
    rw [readFrom, List.foldl_cons, ← readFrom]
    omega

/-- **`atoi` of digits**, when the last addition does not overflow. -/
theorem atoi_digits (rest : List UInt8) (ds : List Nat) : ∀ n : Nat, (∀ d ∈ ds, d < 10) →
    (readFrom n ds : Int) + 48 ≤ INT_MAX →
    atoiLoop n (ds.map digitChar ++ 0 :: rest) = .ok (readFrom n ds : Int) := by
  induction ds with
  | nil =>
    intro n _ _
    exact atoiLoop_nul n rest
  | cons d ds ih =>
    intro n hd hmax
    have hlt := hd d List.mem_cons_self
    have hle := le_readFrom ds (d + 10 * n)
    rw [readFrom, List.foldl_cons, ← readFrom] at hmax ⊢
    have hbound : -INT_MAX ≤ 0 := by decide
    rw [List.map_cons, List.cons_append, atoiLoop_digit hlt, int_ok (by omega) (by omega), ok_bind,
      int_ok (by omega) (by omega), ok_bind, int_ok (by omega) (by omega), ok_bind,
      show (n : Int) * 10 + (48 + d : Nat) - 48 = (d + 10 * n : Nat) by omega]
    exact ih _ (fun e he => hd e (List.mem_cons_of_mem _ he)) hmax

/-- Otherwise it overflows, there if not before. -/
theorem atoi_overflow (rest : List UInt8) (ds : List Nat) : ∀ n : Nat, (∀ d ∈ ds, d < 10) →
    ds ≠ [] → INT_MAX < (readFrom n ds : Int) + 48 →
    atoiLoop n (ds.map digitChar ++ 0 :: rest) = .error .overflow := by
  induction ds with
  | nil =>
    intro n _ h _
    exact absurd rfl h
  | cons d ds ih =>
    intro n hd _ hmax
    have hlt := hd d List.mem_cons_self
    rw [readFrom, List.foldl_cons, ← readFrom] at hmax
    have hbound : -INT_MAX ≤ 0 := by decide
    rw [List.map_cons, List.cons_append, atoiLoop_digit hlt]
    by_cases h1 : (n : Int) * 10 ≤ INT_MAX
    · rw [int_ok (by omega) h1, ok_bind]
      by_cases h2 : (n : Int) * 10 + (48 + d : Nat) ≤ INT_MAX
      · rw [int_ok (by omega) h2, ok_bind, int_ok (by omega) (by omega), ok_bind,
          show (n : Int) * 10 + (48 + d : Nat) - 48 = (d + 10 * n : Nat) by omega]
        refine ih _ (fun e he => hd e (List.mem_cons_of_mem _ he)) (fun he => ?_) hmax
        subst he
        rw [readFrom, List.foldl_nil] at hmax
        omega
      · rw [int_overflow (by omega), error_bind]
    · rw [int_overflow (by omega), error_bind]

/-- The digits of a number, the most significant first, read back. -/
theorem readFrom_digits (n : Nat) : readFrom 0 (Nat.digits 10 n).reverse = n := by
  rw [readFrom, List.foldl_reverse]
  have h := Nat.ofDigits_digits 10 n
  rwa [Nat.ofDigits_eq_foldr] at h

/-- What `itoa` writes, and in which room. -/
theorem itoa_text {n : Nat} (hmax : n ≤ 2147483647) {s : List UInt8}
    (hs : max 1 (Nat.digits 10 n).length < s.length) :
    ∃ ds : List Nat, ds ≠ [] ∧ (∀ d ∈ ds, d < 10) ∧ (ds.head? = some 0 → ds = [0]) ∧
      readFrom 0 ds = n ∧
      itoa n s = .ok ((ds.length : Nat), ds.map digitChar ++ 0 :: s.drop (ds.length + 1)) := by
  by_cases h0 : n = 0
  · subst h0
    exact ⟨[0], by decide, by decide, fun _ => rfl, rfl, itoa_zero (by omega)⟩
  · have hne : Nat.digits 10 n ≠ [] := Nat.digits_ne_nil_iff_ne_zero.2 h0
    refine ⟨(Nat.digits 10 n).reverse, by simpa using hne, fun d hd => ?_, fun hh => ?_,
      readFrom_digits n, ?_⟩
    · exact Nat.digits_lt_base (by decide) (List.mem_reverse.1 hd)
    · -- the most significant digit is not 0
      rw [List.head?_reverse, List.getLast?_eq_some_getLast hne] at hh
      exact absurd (Option.some.inj hh) (Nat.getLast_digit_ne_zero 10 h0)
    · rw [List.length_reverse]
      exact itoa_digits (Nat.pos_of_ne_zero h0) hmax (by omega)

/-- `itoa` writes a number as text, without leading zeros and ended by a NUL, and `atoi` reads it
back; neither does anything undefined. -/
def RoundTrips (a : Int) (s : List UInt8) : Prop :=
  ∃ text s', itoa a s = .ok ((text.length : Nat), s') ∧
    s' = text ++ 0 :: s.drop (text.length + 1) ∧ (∀ ch ∈ text, 48 ≤ ch ∧ ch ≤ 57) ∧
    (text.head? = some 48 → text = [48]) ∧ atoi s' = .ok a

theorem digitChar_digit {d : Nat} (h : d < 10) : 48 ≤ digitChar d ∧ digitChar d ≤ 57 := by
  rw [UInt8.le_iff_toNat_le, UInt8.le_iff_toNat_le, digitChar_toNat h,
    show (48 : UInt8).toNat = 48 from rfl, show (57 : UInt8).toNat = 57 from rfl]
  omega

theorem digitChar_zero {d : Nat} (h : d < 10) (h0 : digitChar d = 48) : d = 0 := by
  have := congrArg UInt8.toNat h0
  rw [digitChar_toNat h, show (48 : UInt8).toNat = 48 from rfl] at this
  omega

/-- **Numbers as text** are read back unless the last addition of `atoi` overflows. -/
theorem itoa_atoi_iff {a : Int} {s : List UInt8} (h0 : 0 ≤ a) (hmax : a ≤ INT_MAX)
    (hs : max 1 (Nat.digits 10 a.toNat).length < s.length) :
    RoundTrips a s ↔ a ≤ 2147483599 := by
  have hm : INT_MAX = 2147483647 := rfl
  obtain ⟨n, rfl⟩ : ∃ n : Nat, a = n := ⟨a.toNat, (Int.toNat_of_nonneg h0).symm⟩
  rw [Int.toNat_natCast] at hs
  obtain ⟨ds, hne, hd, hz, hval, hrun⟩ := itoa_text (by omega) hs
  constructor
  · rintro ⟨text, s', hr, -, -, -, hread⟩
    rw [hrun] at hr
    obtain ⟨-, rfl⟩ := Prod.mk.inj (Except.ok.inj hr)
    by_contra hlt
    rw [atoi, show (0 : Int) = (0 : Nat) from rfl,
      atoi_overflow _ ds 0 hd hne (by rw [hval]; omega)] at hread
    cases hread
  · intro hlt
    refine ⟨ds.map digitChar, _, by rw [List.length_map]; exact hrun, by rw [List.length_map],
      fun ch hch => ?_, fun hh => ?_, ?_⟩
    · obtain ⟨d, hdm, rfl⟩ := List.mem_map.1 hch
      exact digitChar_digit (hd d hdm)
    · rw [List.head?_map] at hh
      obtain ⟨d, hdh, hd0⟩ := Option.map_eq_some_iff.1 hh
      have := digitChar_zero (hd d (List.mem_of_mem_head? hdh)) hd0
      rw [hz (by rw [hdh, this])]
      rfl
    · have := atoi_digits (s.drop (ds.length + 1)) ds 0 hd (by rw [hval]; omega)
      rwa [hval] at this

theorem itoa_atoi_demo : RoundTrips 1037 (List.replicate 20 0) :=
  (itoa_atoi_iff (by decide) (by decide) (by
    rw [List.length_replicate]
    exact max_lt (by decide) (((Nat.digits_length_le_iff (by decide) _).2
      (show _ < 10 ^ 10 by decide)).trans_lt (by decide)))).2 (by decide)

/-- The largest number is not. -/
theorem atoi_max : ¬ RoundTrips INT_MAX (List.replicate 20 0) := by
  rintro ⟨text, s', hr, -, -, -, hread⟩
  obtain ⟨ds, hne, hd, -, hval, hrun⟩ := itoa_text (n := 2147483647) (s := List.replicate 20 0)
    (Nat.le_refl _) (by
      rw [List.length_replicate]
      exact max_lt (by decide) (((Nat.digits_length_le_iff (by decide) _).2
        (show _ < 10 ^ 10 by decide)).trans_lt (by decide)))
  rw [show INT_MAX = (2147483647 : Nat) from rfl, hrun] at hr
  obtain ⟨-, rfl⟩ := Prod.mk.inj (Except.ok.inj hr)
  rw [atoi, show (0 : Int) = (0 : Nat) from rfl,
    atoi_overflow _ ds 0 hd hne (by rw [hval]; decide)] at hread
  cases hread

end BareMetal.Ulib
