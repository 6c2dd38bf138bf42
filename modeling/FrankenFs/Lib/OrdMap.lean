import Mathlib.Order.Lattice
import Mathlib.Data.List.Basic

/-!
# Finite maps in key order

A list of entries with strictly ascending keys, so two maps with the same lookups are equal. `alter`
and `filterMap` are the only two ways to change one.
-/

namespace FrankenFs.Lib

variable {κ α β : Type} [LinearOrder κ]

structure OrdMap (κ : Type) [LinearOrder κ] (α : Type) where
  entries : List (κ × α)
  sorted : entries.Pairwise (fun a b => a.1 < b.1)
deriving DecidableEq

namespace OrdMap

/-! ## Lists of entries -/

def lookupEntry (k : κ) : List (κ × α) → Option α
  | [] => none
  | (k', v) :: rest => if k = k' then some v else lookupEntry k rest

def alterEntries (k : κ) (f : Option α → Option α) : List (κ × α) → List (κ × α)
  | [] => (f none).toList.map (Prod.mk k)
  | (k', v) :: rest =>
    if k < k' then (f none).toList.map (Prod.mk k) ++ (k', v) :: rest
    else if k = k' then (f (some v)).toList.map (Prod.mk k) ++ rest
    else (k', v) :: alterEntries k f rest

def filterMapEntries (f : κ → α → Option β) (l : List (κ × α)) : List (κ × β) :=
  l.filterMap fun e => (f e.1 e.2).map (Prod.mk e.1)

variable {k : κ} {l : List (κ × α)}

theorem lookupEntry_none_of_lt (h : ∀ e ∈ l, k < e.1) : lookupEntry k l = none := by
  induction l with
  | nil => rfl
  | cons e rest ih =>
    obtain ⟨k', v⟩ := e
    have hk : k < k' := h (k', v) (by simp)
    rw [lookupEntry, if_neg (ne_of_lt hk)]
    exact ih fun e he => h e (by simp [he])

theorem sorted_ext {l' : List (κ × α)} (hl : l.Pairwise fun a b => a.1 < b.1)
    (hl' : l'.Pairwise fun a b => a.1 < b.1) (h : ∀ e, e ∈ l ↔ e ∈ l') : l = l' := by
  have hnodup : ∀ {l : List (κ × α)}, l.Pairwise (fun a b => a.1 < b.1) → l.Nodup := fun hp =>
    hp.imp fun hab he => absurd (congrArg Prod.fst he) (ne_of_lt hab)
  have hperm : l.Perm l' := (List.perm_ext_iff_of_nodup (hnodup hl) (hnodup hl')).mpr h
  exact hperm.eq_of_pairwise (fun a b _ _ hab hba => absurd (lt_trans hab hba) (lt_irrefl _)) hl hl'

theorem mem_iff_lookupEntry {v : α} (hs : l.Pairwise (fun a b => a.1 < b.1)) :
    (k, v) ∈ l ↔ lookupEntry k l = some v := by
  induction l with
  | nil => simp [lookupEntry]
  | cons e rest ih =>
    obtain ⟨k', v'⟩ := e
    rw [List.pairwise_cons] at hs
    by_cases hk : k = k'
    · subst hk
      have hnone := lookupEntry_none_of_lt (α := α) hs.1
      rw [lookupEntry, if_pos rfl, List.mem_cons, ih hs.2, hnone]
      simp [eq_comm]
    · rw [lookupEntry, if_neg hk, ← ih hs.2]
      simp [hk]

variable {f : Option α → Option α}

theorem fst_mem_alterEntries {e : κ × α} (he : e ∈ alterEntries k f l) : e.1 = k ∨ e ∈ l := by
  induction l with
  | nil =>
    simp only [alterEntries, List.mem_map] at he
    obtain ⟨v, -, rfl⟩ := he
    exact Or.inl rfl
  | cons e' rest ih =>
    obtain ⟨k', v'⟩ := e'
    simp only [alterEntries] at he
    split_ifs at he with h1 h2
    · rw [List.mem_append, List.mem_map] at he
      rcases he with ⟨v, -, rfl⟩ | he
      · exact Or.inl rfl
      · exact Or.inr he
    · rw [List.mem_append, List.mem_map] at he
      rcases he with ⟨v, -, rfl⟩ | he
      · exact Or.inl rfl
      · exact Or.inr (List.mem_cons_of_mem _ he)
    · rw [List.mem_cons] at he
      rcases he with rfl | he
      · exact Or.inr (by simp)
      · rcases ih he with h | h
        · exact Or.inl h
        · exact Or.inr (List.mem_cons_of_mem _ h)

variable {o : Option α}

theorem pairwise_prepend (hs : l.Pairwise (fun a b => a.1 < b.1)) (hk : ∀ e ∈ l, k < e.1) :
    (o.toList.map (Prod.mk k) ++ l).Pairwise (fun a b => a.1 < b.1) := by
  cases o with
  | none => simpa using hs
  | some v => simpa using ⟨fun a b h => hk (a, b) h, hs⟩

theorem alterEntries_sorted (hs : l.Pairwise (fun a b => a.1 < b.1)) :
    (alterEntries k f l).Pairwise (fun a b => a.1 < b.1) := by
  induction l with
  | nil => simpa [alterEntries] using pairwise_prepend (o := f none) (k := k) hs (by simp)
  | cons e rest ih =>
    obtain ⟨k', v⟩ := e
    have hs' := List.pairwise_cons.mp hs
    simp only [alterEntries]
    split_ifs with h1 h2
    · refine pairwise_prepend hs fun e he => ?_
      rcases List.mem_cons.mp he with rfl | he
      · exact h1
      · exact lt_trans h1 (hs'.1 e he)
    · subst h2
      exact pairwise_prepend hs'.2 hs'.1
    · refine List.pairwise_cons.mpr ⟨fun e he => ?_, ih hs'.2⟩
      rcases fst_mem_alterEntries he with h | h
      · rw [h]
        exact lt_of_le_of_ne (le_of_not_gt h1) (Ne.symm h2)
      · exact hs'.1 e h

theorem lookupEntry_prepend_self (hk : ∀ e ∈ l, k < e.1) :
    lookupEntry k (o.toList.map (Prod.mk k) ++ l) = o := by
  cases o with
  | none => simpa using lookupEntry_none_of_lt hk
  | some v => simp [lookupEntry]

variable {k' : κ}

theorem lookupEntry_prepend_ne (h : k' ≠ k) :
    lookupEntry k' (o.toList.map (Prod.mk k) ++ l) = lookupEntry k' l := by
  cases o with
  | none => rfl
  | some v => simp [lookupEntry, h]

theorem lookupEntry_alterEntries (hs : l.Pairwise (fun a b => a.1 < b.1)) :
    lookupEntry k' (alterEntries k f l) =
      if k' = k then f (lookupEntry k l) else lookupEntry k' l := by
  induction l with
  | nil =>
    have := lookupEntry_prepend_self (o := f none) (k := k) (l := []) (by simp)
    by_cases h : k' = k
    · subst h; simpa [alterEntries, lookupEntry] using this
    · rw [if_neg h]
      simpa [alterEntries] using lookupEntry_prepend_ne (o := f none) (l := []) h
  | cons e rest ih =>
    obtain ⟨k₁, v⟩ := e
    have hs' := List.pairwise_cons.mp hs
    simp only [alterEntries]
    split_ifs with h1 h2 h3 h4 h5
    · -- The new key comes first.
      subst h2
      have hlt : ∀ e ∈ (k₁, v) :: rest, k' < e.1 := by
        intro e he
        rcases List.mem_cons.mp he with rfl | he
        · exact h1
        · exact lt_trans h1 (hs'.1 e he)
      rw [lookupEntry_prepend_self hlt, lookupEntry_none_of_lt hlt]
    · exact lookupEntry_prepend_ne h2
    · -- The key is the first one already.
      subst h3 h4
      rw [lookupEntry_prepend_self hs'.1, lookupEntry, if_pos rfl]
    · subst h3
      rw [lookupEntry_prepend_ne h4, lookupEntry, if_neg h4]
    · subst h5
      rw [lookupEntry, if_neg h3, ih hs'.2, if_pos rfl, lookupEntry, if_neg h3]
    · rw [lookupEntry, ih hs'.2, if_neg h5, lookupEntry]

theorem filterMapEntries_sorted {f : κ → α → Option β} (hs : l.Pairwise (fun a b => a.1 < b.1)) :
    (filterMapEntries f l).Pairwise (fun a b => a.1 < b.1) := by
  refine List.Pairwise.filterMap _ ?_ hs
  intro a a' h b hb b' hb'
  simp only [Option.map_eq_some_iff] at hb hb'
  obtain ⟨x, -, rfl⟩ := hb
  obtain ⟨y, -, rfl⟩ := hb'
  exact h

theorem lookupEntry_filterMapEntries {f : κ → α → Option β} (hs : l.Pairwise (fun a b => a.1 < b.1))
    : lookupEntry k (filterMapEntries f l) = (lookupEntry k l).bind (f k) := by
  induction l with
  | nil => rfl
  | cons e rest ih =>
    obtain ⟨k', v⟩ := e
    have hs' := List.pairwise_cons.mp hs
    have ih := ih hs'.2
    unfold filterMapEntries at ih ⊢
    rw [List.filterMap_cons]
    by_cases hk : k = k'
    · subst hk
      rw [lookupEntry, if_pos rfl]
      cases hf : f k v with
      | none =>
        rw [lookupEntry_none_of_lt hs'.1] at ih
        simpa [hf] using ih
      | some w => simp [lookupEntry, hf]
    · rw [lookupEntry, if_neg hk]
      cases hf : f k' v with
      | none => simpa [hf] using ih
      | some w => simpa [hf, lookupEntry, hk] using ih

/-! ## Maps -/

def empty : OrdMap κ α := ⟨[], List.Pairwise.nil⟩

instance : EmptyCollection (OrdMap κ α) := ⟨empty⟩
instance : Inhabited (OrdMap κ α) := ⟨empty⟩

def get? (m : OrdMap κ α) (k : κ) : Option α := lookupEntry k m.entries

def keys (m : OrdMap κ α) : List κ := m.entries.map Prod.fst

def minKey? (m : OrdMap κ α) : Option κ := m.keys.head?

def alter (m : OrdMap κ α) (k : κ) (f : Option α → Option α) : OrdMap κ α :=
  ⟨alterEntries k f m.entries, alterEntries_sorted m.sorted⟩

def insert (m : OrdMap κ α) (k : κ) (v : α) : OrdMap κ α := m.alter k fun _ => some v

def erase (m : OrdMap κ α) (k : κ) : OrdMap κ α := m.alter k fun _ => none

def filterMap (m : OrdMap κ α) (f : κ → α → Option β) : OrdMap κ β :=
  ⟨filterMapEntries f m.entries, filterMapEntries_sorted m.sorted⟩

def map (m : OrdMap κ α) (f : κ → α → β) : OrdMap κ β := m.filterMap fun k v => some (f k v)

def filter (m : OrdMap κ α) (p : κ → α → Bool) : OrdMap κ α :=
  m.filterMap fun k v => if p k v then some v else none

@[simp]
theorem get?_empty (k : κ) : (∅ : OrdMap κ α).get? k = none := rfl

theorem get?_alter (m : OrdMap κ α) (k k' : κ) (f : Option α → Option α) :
    (m.alter k f).get? k' = if k' = k then f (m.get? k) else m.get? k' :=
  lookupEntry_alterEntries m.sorted

theorem get?_foldl_alter {ks : List κ} (hnd : ks.Nodup) (f : Option α → Option α)
    (m : OrdMap κ α) (k : κ) :
    (ks.foldl (fun m k => m.alter k f) m).get? k = if k ∈ ks then f (m.get? k) else m.get? k := by
  induction ks generalizing m with
  | nil => simp
  | cons k' ks ih =>
    rw [List.nodup_cons] at hnd
    rw [List.foldl_cons, ih hnd.2, get?_alter]
    by_cases hk : k = k'
    · subst hk
      simp [hnd.1]
    · simp [hk]

@[simp]
theorem get?_insert (m : OrdMap κ α) (k k' : κ) (v : α) :
    (m.insert k v).get? k' = if k' = k then some v else m.get? k' := get?_alter ..

@[simp]
theorem get?_erase (m : OrdMap κ α) (k k' : κ) :
    (m.erase k).get? k' = if k' = k then none else m.get? k' := get?_alter ..

@[simp]
theorem get?_filterMap (m : OrdMap κ α) (f : κ → α → Option β) (k : κ) :
    (m.filterMap f).get? k = (m.get? k).bind (f k) := lookupEntry_filterMapEntries m.sorted

@[simp]
theorem get?_map (m : OrdMap κ α) (f : κ → α → β) (k : κ) :
    (m.map f).get? k = (m.get? k).map (f k) := by
  rw [map, get?_filterMap]
  cases m.get? k <;> rfl

@[simp]
theorem get?_filter (m : OrdMap κ α) (p : κ → α → Bool) (k : κ) :
    (m.filter p).get? k = (m.get? k).filter (p k) := by
  rw [filter, get?_filterMap]
  cases m.get? k <;> simp [Option.filter]

theorem mem_entries (m : OrdMap κ α) {v : α} : (k, v) ∈ m.entries ↔ m.get? k = some v :=
  mem_iff_lookupEntry m.sorted

theorem mem_keys (m : OrdMap κ α) : k ∈ m.keys ↔ (m.get? k).isSome := by
  rw [Option.isSome_iff_exists]
  simp only [keys, List.mem_map, Prod.exists, exists_and_right, exists_eq_right, mem_entries]

theorem keys_sorted (m : OrdMap κ α) : m.keys.Pairwise (· < ·) :=
  List.pairwise_map.mpr m.sorted

theorem keys_nodup (m : OrdMap κ α) : m.keys.Nodup :=
  m.keys_sorted.imp ne_of_lt

theorem minKey?_eq_none (m : OrdMap κ α) : m.minKey? = none ↔ ∀ k, m.get? k = none := by
  rw [minKey?, List.head?_eq_none_iff, List.eq_nil_iff_forall_not_mem]
  simp only [mem_keys, Option.not_isSome_iff_eq_none]

theorem get?_of_minKey? (m : OrdMap κ α) (h : m.minKey? = some k) : (m.get? k).isSome := by
  rw [← mem_keys]
  exact List.mem_of_mem_head? h

theorem minKey?_le (m : OrdMap κ α) (h : m.minKey? = some k) (h' : (m.get? k').isSome) :
    k ≤ k' := by
  rw [← mem_keys] at h'
  have hs := m.keys_sorted
  rw [minKey?] at h
  cases hk : m.keys with
  | nil => simp [hk] at h
  | cons a rest =>
    rw [hk] at h h' hs
    obtain rfl : a = k := by simpa using h
    rcases List.mem_cons.mp h' with rfl | h'
    · exact le_refl _
    · exact le_of_lt ((List.pairwise_cons.mp hs).1 k' h')

def weighEntries (weight : α → Nat) : List (κ × α) → Nat
  | [] => 0
  | e :: rest => weight e.2 + weighEntries weight rest

def total (m : OrdMap κ α) (weight : α → Nat) : Nat := weighEntries weight m.entries

omit [LinearOrder κ] in
theorem weighEntries_prepend (weight : α → Nat) (k : κ) (o : Option α) (l : List (κ × α)) :
    weighEntries weight (o.toList.map (Prod.mk k) ++ l) = o.elim 0 weight + weighEntries weight l := by
  cases o with
  | none => exact (Nat.zero_add _).symm
  | some v => rfl

theorem total_alter (m : OrdMap κ α) (weight : α → Nat) (k : κ) (f : Option α → Option α) :
    (m.alter k f).total weight + (m.get? k).elim 0 weight =
      m.total weight + (f (m.get? k)).elim 0 weight := by
  obtain ⟨l, hl⟩ := m
  show weighEntries weight (alterEntries k f l) + (lookupEntry k l).elim 0 weight =
    weighEntries weight l + (f (lookupEntry k l)).elim 0 weight
  induction l with
  | nil =>
    have := weighEntries_prepend weight k (f none) []
    rw [List.append_nil] at this
    exact this.trans (Nat.add_comm _ _)
  | cons e rest ih =>
    obtain ⟨k', v⟩ := e
    rw [List.pairwise_cons] at hl
    unfold alterEntries lookupEntry
    split_ifs with hlt heq heq
    · exact absurd heq hlt.ne
    · rw [lookupEntry_none_of_lt fun e he => hlt.trans (hl.1 e he), weighEntries_prepend]
      simp only [Option.elim_none]
      omega
    · rw [weighEntries_prepend]
      simp only [Option.elim_some, weighEntries]
      omega
    · have := ih hl.2
      simp only [weighEntries]
      omega

end OrdMap

end FrankenFs.Lib
