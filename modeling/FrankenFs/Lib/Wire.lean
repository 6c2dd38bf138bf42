import Mathlib.Algebra.Order.Group.Nat
import Mathlib.Data.List.Forall2
import Mathlib.Tactic.NormNum

/-!
# Fields in a byte string

`toLe w n` is the number `n` in `w` bytes, least significant first, and `toBe` has them the other way
round. Checks that return early are `failIf`.
-/

namespace FrankenFs.Lib

abbrev Bytes := List (BitVec 8)

/-! ## Numbers -/

def toLe : Nat → Nat → List (BitVec 8)
  | 0, _ => []
  | w + 1, n => BitVec.ofNat 8 n :: toLe w (n / 256)

def ofLe : List (BitVec 8) → Nat
  | [] => 0
  | b :: rest => b.toNat + 256 * ofLe rest

@[simp]
theorem length_toLe (w n : Nat) : (toLe w n).length = w := by
  induction w generalizing n with
  | zero => rfl
  | succ w ih => rw [toLe, List.length_cons, ih]

theorem ofLe_toLe_mod (w n : Nat) : ofLe (toLe w n) = n % 256 ^ w := by
  induction w generalizing n with
  | zero => rw [toLe, ofLe, Nat.pow_zero, Nat.mod_one]
  | succ w ih =>
    have hmod : n % 256 ^ (w + 1) = n % 256 + 256 * (n / 256 % 256 ^ w) := by
      rw [Nat.pow_succ', Nat.mod_mul]
    rw [toLe, ofLe, ih, BitVec.toNat_ofNat, hmod]

variable {w n : Nat}

theorem ofLe_toLe (h : n < 256 ^ w) : ofLe (toLe w n) = n := by
  rw [ofLe_toLe_mod, Nat.mod_eq_of_lt h]

theorem ofLe_lt (bytes : List (BitVec 8)) : ofLe bytes < 256 ^ bytes.length := by
  induction bytes with
  | nil => exact Nat.one_pos
  | cons b rest ih =>
    have hb := b.isLt
    rw [ofLe, List.length_cons, Nat.pow_succ]
    omega

theorem toLe_ofLe (bytes : Bytes) : toLe bytes.length (ofLe bytes) = bytes := by
  induction bytes with
  | nil => rfl
  | cons b rest ih =>
    have hb := b.isLt
    rw [List.length_cons, ofLe, toLe, show (b.toNat + 256 * ofLe rest) / 256 = ofLe rest by omega, ih]
    congr 1
    apply BitVec.eq_of_toNat_eq
    rw [BitVec.toNat_ofNat]
    omega

/-! ## Reads -/

def splitFirst (n : Nat) (bytes : List (BitVec 8)) :
    Option (List (BitVec 8) × List (BitVec 8)) :=
  if n ≤ bytes.length then some (bytes.take n, bytes.drop n) else none

def takeLe (w : Nat) (bytes : List (BitVec 8)) : Option (Nat × List (BitVec 8)) :=
  (splitFirst w bytes).map fun parts => (ofLe parts.1, parts.2)

theorem splitFirst_append {n : Nat} {field : List (BitVec 8)} (h : field.length = n)
    (rest : List (BitVec 8)) : splitFirst n (field ++ rest) = some (field, rest) := by
  subst h
  rw [splitFirst, if_pos (by simp), List.take_left, List.drop_left]

theorem takeLe_toLe (h : n < 256 ^ w) (rest : List (BitVec 8)) :
    takeLe w (toLe w n ++ rest) = some (n, rest) := by
  rw [takeLe, splitFirst_append (length_toLe w n), Option.map_some, ofLe_toLe h]

theorem takeLe_lt {bytes rest : List (BitVec 8)} (h : takeLe w bytes = some (n, rest)) :
    n < 256 ^ w := by
  unfold takeLe splitFirst at h
  split at h
  · rename_i hlen
    cases h
    have hlt := ofLe_lt (bytes.take w)
    rwa [List.length_take, Nat.min_eq_left hlen] at hlt
  · cases h

def leAt (start w : Nat) (header : List (BitVec 8)) : Nat := ofLe ((header.drop start).take w)

theorem leAt_append (front : List (BitVec 8)) (hn : n < 256 ^ w) (rest : List (BitVec 8)) :
    leAt front.length w (front ++ (toLe w n ++ rest)) = n := by
  rw [leAt, List.drop_left, List.take_left' (length_toLe w n), ofLe_toLe hn]

theorem leAt_append_add (front rest : List (BitVec 8)) (k w : Nat) :
    leAt (front.length + k) w (front ++ rest) = leAt k w rest := by
  unfold leAt
  rw [← List.drop_drop, List.drop_left]

theorem leAt_append_left {front : List (BitVec 8)} {start : Nat} (h : start + w ≤ front.length)
    (rest : List (BitVec 8)) : leAt start w (front ++ rest) = leAt start w front := by
  unfold leAt
  rw [List.drop_append_of_le_length (by omega), List.take_append_of_le_length (by
    rw [List.length_drop]; omega)]

theorem leAt_skip {field : List (BitVec 8)} (h : field.length = n) (rest : List (BitVec 8))
    (k w : Nat) : leAt (n + k) w (field ++ rest) = leAt k w rest :=
  h ▸ leAt_append_add field rest k w

theorem leAt_here (h : n < 256 ^ w) (rest : List (BitVec 8)) :
    leAt 0 w (toLe w n ++ rest) = n := leAt_append [] h rest

theorem leAt_lt (start w : Nat) (header : List (BitVec 8)) : leAt start w header < 256 ^ w :=
  (ofLe_lt _).trans_le (Nat.pow_le_pow_right (by omega) (List.length_take_le _ _))

variable {k : Nat}

theorem leAt_take (h : w ≤ k) (bytes : List (BitVec 8)) :
    leAt 0 w (bytes.take k) = leAt 0 w bytes := by
  rw [leAt, leAt, List.drop_zero, List.drop_zero, List.take_take, Nat.min_eq_left h]

theorem toLe_leAt {start : Nat} {bytes : List (BitVec 8)} (h : start + w ≤ bytes.length) :
    toLe w (leAt start w bytes) = (bytes.drop start).take w := by
  have hlen : ((bytes.drop start).take w).length = w := by
    rw [List.length_take, List.length_drop]
    omega
  have hfield := toLe_ofLe ((bytes.drop start).take w)
  rwa [hlen] at hfield

def readLe (w off : Nat) (block : Bytes) : Option Nat :=
  if off + w ≤ block.length then some (leAt off w block) else none

theorem readLe_of_le {off : Nat} {block : Bytes} (h : off + w ≤ block.length) :
    readLe w off block = some (leAt off w block) := if_pos h

inductive ParseError where
  | insufficientData (needed offset actual : Nat)
  | invalidField (field reason : String)
deriving DecidableEq, Repr

def readField (w : Nat) (data : Bytes) (offset : Nat) : Except ParseError Nat :=
  if data.length < offset + w then .error (.insufficientData w offset (data.length - offset))
  else .ok (leAt offset w data)

theorem readField_ok {data : Bytes} {offset : Nat} (h : offset + w ≤ data.length) :
    readField w data offset = .ok (leAt offset w data) := if_neg (by omega)

/-! ## Big-endian fields -/

def toBe (w n : Nat) : Bytes := (toLe w n).reverse

@[simp]
theorem length_toBe (w n : Nat) : (toBe w n).length = w := by simp [toBe]

/-! ## Fields written in place -/

/-- `block` with the bytes from `start` on replaced by `field`. -/
def overwrite (start : Nat) (field block : Bytes) : Bytes :=
  block.take start ++ field ++ block.drop (start + field.length)

section Overwrite

variable {start : Nat} {field block : Bytes}

theorem length_overwrite (h : start + field.length ≤ block.length) :
    (overwrite start field block).length = block.length := by
  unfold overwrite
  rw [List.length_append, List.length_append, List.length_take, List.length_drop]
  omega

theorem getElem?_overwrite (h : start + field.length ≤ block.length) (i : Nat) :
    (overwrite start field block)[i]? =
      if start ≤ i ∧ i < start + field.length then field[i - start]? else block[i]? := by
  have hlen : (block.take start).length = start := by rw [List.length_take]; omega
  unfold overwrite
  split_ifs with hi
  · rw [List.getElem?_append_left (by rw [List.length_append]; omega),
      List.getElem?_append_right (by omega), hlen]
  · rcases Nat.lt_or_ge i start with hlt | hge
    · rw [List.getElem?_append_left (by rw [List.length_append]; omega),
        List.getElem?_append_left (by omega), List.getElem?_take, if_pos hlt]
    · rw [List.getElem?_append_right (by rw [List.length_append]; omega), List.getElem?_drop,
        List.length_append, hlen]
      congr 1
      omega

theorem slice_overwrite_self (h : start ≤ block.length) :
    ((overwrite start field block).drop start).take field.length = field := by
  have hlen : (block.take start).length = start := by rw [List.length_take]; omega
  unfold overwrite
  rw [List.append_assoc]
  conv_lhs => rw [List.drop_left' hlen]
  rw [List.take_left]

theorem slice_overwrite_of_disjoint (h : start + field.length ≤ block.length) {k w : Nat}
    (hd : k + w ≤ start ∨ start + field.length ≤ k) :
    ((overwrite start field block).drop k).take w = (block.drop k).take w := by
  apply List.ext_getElem?
  intro i
  rw [List.getElem?_take, List.getElem?_take, List.getElem?_drop, List.getElem?_drop,
    getElem?_overwrite h]
  split_ifs <;> first | rfl | omega

theorem leAt_overwrite_self {w n : Nat} (h : start + w ≤ block.length) :
    leAt start w (overwrite start (toLe w n) block) = n % 256 ^ w := by
  have hslice : ((overwrite start (toLe w n) block).drop start).take (toLe w n).length = toLe w n :=
    slice_overwrite_self (by omega)
  rw [length_toLe] at hslice
  unfold leAt
  rw [hslice, ofLe_toLe_mod]

theorem leAt_overwrite_of_disjoint (h : start + field.length ≤ block.length) {k w : Nat}
    (hd : k + w ≤ start ∨ start + field.length ≤ k) :
    leAt k w (overwrite start field block) = leAt k w block := by
  unfold leAt
  rw [slice_overwrite_of_disjoint h hd]

theorem overwrite_append_mid (front back : Bytes) {mid : Bytes} {k : Nat}
    (h : k + field.length ≤ mid.length) :
    overwrite (front.length + k) field (front ++ (mid ++ back)) =
      front ++ (overwrite k field mid ++ back) := by
  unfold overwrite
  rw [List.take_append, List.take_of_length_le (by omega), Nat.add_sub_cancel_left,
    List.take_append_of_le_length (by omega), Nat.add_assoc, ← List.drop_drop, List.drop_left,
    List.drop_append_of_le_length h]
  simp only [List.append_assoc]

theorem overwrite_append_whole (front back : Bytes) {mid : Bytes} (h : field.length = mid.length) :
    overwrite front.length field (front ++ (mid ++ back)) = front ++ (field ++ back) := by
  unfold overwrite
  rw [List.take_left, ← List.drop_drop, List.drop_left, List.drop_left' h.symm, List.append_assoc]

theorem overwrite_overwrite_next {field' : Bytes} (h : start + field.length ≤ block.length) :
    overwrite (start + field.length) field' (overwrite start field block) =
      overwrite start (field ++ field') block := by
  have hlen : (block.take start ++ field).length = start + field.length := by
    rw [List.length_append, List.length_take]
    omega
  unfold overwrite
  rw [List.take_left' hlen, ← List.drop_drop, List.drop_left' hlen, List.drop_drop,
    List.length_append, Nat.add_assoc, List.append_assoc, List.append_assoc, List.append_assoc,
    List.append_assoc]

end Overwrite

/-! ## Checks -/

section Checks

variable {ε α β : Type}

def failIf (c : Prop) [Decidable c] (e : ε) : Except ε Unit := if c then .error e else .ok ()

theorem failIf_ok {c : Prop} [Decidable c] {e : ε} {u : Unit} : failIf c e = .ok u ↔ ¬ c := by
  unfold failIf
  split_ifs with h
  · simp [h]
  · simp [h]

theorem failIf_of_not {c : Prop} [Decidable c] (h : ¬ c) (e : ε) : failIf c e = .ok () := if_neg h

def okOr (o : Option α) (e : ε) : Except ε α := o.elim (.error e) .ok

theorem okOr_ok {o : Option α} {e : ε} {a : α} : okOr o e = .ok a ↔ o = some a := by
  cases o with
  | none => exact ⟨fun h => (by cases h), fun h => (by cases h)⟩
  | some b => exact Except.ok.injEq b a ▸ Option.some.injEq b a ▸ Iff.rfl

variable {f : α → Except ε β}

theorem bind_ok {x : Except ε α} {b : β} : (x >>= f) = .ok b ↔ ∃ a, x = .ok a ∧ f a = .ok b := by
  cases x with
  | error e => simp [bind, Except.bind]
  | ok a => simp [bind, Except.bind]

theorem map_ok {x : Except ε α} {f : α → β} {b : β} :
    x.map f = .ok b ↔ ∃ a, x = .ok a ∧ f a = b := by
  cases x with
  | error e => simp [Except.map]
  | ok a => simp [Except.map]

theorem ok_bind (a : α) (f : α → Except ε β) : (Except.ok a >>= f) = f a := rfl

def OnOk (P : α → Prop) : Except ε α → Prop
  | .ok a => P a
  | .error _ => True

instance (P : α → Prop) [DecidablePred P] : DecidablePred (@OnOk ε α P)
  | .ok a => inferInstanceAs (Decidable (P a))
  | .error _ => .isTrue trivial

variable {l : List α} {l' : List β}

theorem mapM_eq_ok : l.mapM f = .ok l' ↔ List.Forall₂ (fun a b => f a = .ok b) l l' := by
  induction l generalizing l' with
  | nil =>
    rw [List.mapM_nil, List.forall₂_nil_left_iff]
    constructor
    · rintro ⟨⟩
      rfl
    · rintro rfl
      rfl
  | cons a l ih =>
    rw [List.mapM_cons, bind_ok, List.forall₂_cons_left_iff]
    constructor
    · rintro ⟨b, hb, h⟩
      obtain ⟨bs, hbs, h⟩ := bind_ok.mp h
      cases h
      exact ⟨b, bs, hb, ih.mp hbs, rfl⟩
    · rintro ⟨b, bs, hb, hbs, rfl⟩
      exact ⟨b, hb, bind_ok.mpr ⟨bs, ih.mpr hbs, rfl⟩⟩

theorem exists_of_mapM_ok (h : l.mapM f = .ok l') {a : α} (ha : a ∈ l) : ∃ b, f a = .ok b := by
  induction mapM_eq_ok.mp h with
  | nil => cases ha
  | cons hfirst hrest ih =>
    rcases List.mem_cons.mp ha with rfl | ha
    · exact ⟨_, hfirst⟩
    · exact ih (mapM_eq_ok.mpr hrest) ha

theorem exists_mapM_ok (h : ∀ a ∈ l, ∃ b, f a = .ok b) : ∃ l', l.mapM f = .ok l' := by
  induction l with
  | nil => exact ⟨[], rfl⟩
  | cons a l ih =>
    obtain ⟨b, hb⟩ := h a List.mem_cons_self
    obtain ⟨bs, hbs⟩ := ih fun a ha => h a (List.mem_cons_of_mem _ ha)
    exact ⟨b :: bs, by rw [List.mapM_cons, hb, ok_bind, hbs, ok_bind]; rfl⟩

theorem mapM_ok_of {g : α → β} (h : ∀ a ∈ l, f a = .ok (g a)) : l.mapM f = .ok (l.map g) := by
  rw [mapM_eq_ok, List.forall₂_map_right_iff, List.forall₂_same]
  exact h

theorem map_of_mapM_ok {γ : Type} {g : β → γ} {key : α → γ} (hf : ∀ a b, f a = .ok b → g b = key a)
    (h : l.mapM f = .ok l') : l'.map g = l.map key := by
  induction mapM_eq_ok.mp h with
  | nil => rfl
  | cons hfirst hrest ih =>
    rw [List.map_cons, List.map_cons, hf _ _ hfirst, ih (mapM_eq_ok.mpr hrest)]

theorem mapM_ok_of_map {γ : Type} {f : γ → Except ε β} {g : α → Except ε β} (key : α → γ)
    (hfg : ∀ a ∈ l, ∀ b, f (key a) = .ok b → g a = .ok b) (h : (l.map key).mapM f = .ok l') :
    l.mapM g = .ok l' := by
  rw [mapM_eq_ok, List.forall₂_map_left_iff] at h
  rw [mapM_eq_ok]
  induction h with
  | nil => exact .nil
  | cons hfirst _ ih =>
    exact .cons (hfg _ List.mem_cons_self _ hfirst)
      (ih fun a ha => hfg a (List.mem_cons_of_mem _ ha))

theorem mapM_congr_mem {f g : α → Option β} (h : ∀ a ∈ l, f a = g a) : l.mapM f = l.mapM g := by
  induction l with
  | nil => rfl
  | cons a l ih =>
    rw [List.mapM_cons, List.mapM_cons, h a List.mem_cons_self,
      ih fun b hb => h b (List.mem_cons_of_mem a hb)]

theorem length_of_mapM {f : α → Option β} {out : List β} (h : l.mapM f = some out) :
    out.length = l.length := by
  induction l generalizing out with
  | nil =>
    cases h
    rfl
  | cons a l ih =>
    simp only [List.mapM_cons, Option.bind_eq_bind, Option.bind_eq_some_iff, Option.pure_def,
      Option.some.injEq] at h
    obtain ⟨b, -, rest, hrest, rfl⟩ := h
    rw [List.length_cons, List.length_cons, ih hrest]

end Checks

/-! ## Rounding up -/

def divCeil (n k : Nat) : Nat := (n + k - 1) / k

theorem divCeil_eq (n : Nat) {m : Nat} (hm : 0 < m) :
    divCeil n m = n / m + if n % m ≠ 0 then 1 else 0 := by
  unfold divCeil
  have hsplit := Nat.div_add_mod' n m
  have hlt := Nat.mod_lt n hm
  by_cases hzero : n % m = 0
  · rw [if_neg (not_not.mpr hzero), Nat.add_zero]
    exact Nat.div_eq_of_lt_le (by omega) (by rw [Nat.succ_mul]; omega)
  · rw [if_pos hzero]
    exact Nat.div_eq_of_lt_le (by rw [Nat.succ_mul]; omega)
      (by rw [Nat.succ_mul, Nat.succ_mul]; omega)

theorem divCeil_pos (hn : 0 < n) (hk : 0 < k) : 0 < divCeil n k :=
  Nat.div_pos (by omega) hk

theorem divCeil_zero (k : Nat) : divCeil 0 k = 0 := by
  unfold divCeil
  rcases k with _ | k
  · rfl
  · exact Nat.div_eq_of_lt (by omega)

theorem divCeil_add_self (n : Nat) (hk : 0 < k) : divCeil (k + n) k = divCeil n k + 1 := by
  unfold divCeil
  rw [Nat.add_assoc, Nat.add_sub_assoc (by omega), Nat.add_div_left _ hk]

theorem divCeil_eq_one (hn : 0 < n) (hk : n ≤ k) : divCeil n k = 1 := by
  obtain rfl | hlt := Nat.eq_or_lt_of_le hk
  · exact (divCeil_add_self 0 hn).trans (by rw [divCeil_zero])
  · unfold divCeil
    rw [Nat.div_eq_of_lt_le] <;> omega

/-- A chunk that is full, or the last one, takes one block. -/
theorem divCeil_add {m : Nat} (hm : 0 < m) (hk : m ≤ k) (hclosed : m = k ∨ n = 0) :
    divCeil (m + n) k = divCeil n k + 1 := by
  rcases hclosed with rfl | rfl
  · exact divCeil_add_self n hm
  · rw [Nat.add_zero, divCeil_zero, divCeil_eq_one hm hk]

end FrankenFs.Lib
