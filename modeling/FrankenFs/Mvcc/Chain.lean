import FrankenFs.Mvcc.Compression

/-!
# What a version chain stores

`Stores chain es` says that the chain holds the entries `es`, each version resolving to its bytes.
-/

open FrankenFs.Lib

namespace FrankenFs.Mvcc

abbrev Entries := List (Nat × Bytes)

def Ascending (es : Entries) : Prop := es.Pairwise fun a b => a.1 < b.1

variable {es : Entries}

theorem Ascending.le_last (h : Ascending es) {last : Nat × Bytes} (hl : es.getLast? = some last) :
    ∀ e ∈ es, e.1 ≤ last.1 := by
  obtain ⟨init, rfl⟩ := List.getLast?_eq_some_iff.mp hl
  intro e he
  rcases List.mem_append.mp he with he | he
  · exact le_of_lt ((List.pairwise_append.mp h).2.2 e he last (by simp))
  · rw [List.mem_singleton.mp he]

/-! ## Trims -/

/-- `post` is `es` without a prefix that no reader at or after `w` can see. -/
def Trimmed (w : Nat) (es post : Entries) : Prop :=
  ∃ pre, es = pre ++ post ∧ (pre = [] ∨ ∃ e, post.head? = some e ∧ e.1 ≤ w)

theorem Trimmed.refl (w : Nat) (es : Entries) : Trimmed w es es := ⟨[], rfl, Or.inl rfl⟩

theorem trimCount_spec {α : Type} (versions : List α) (seq : α → Nat) (maxLen : Nat)
    (w : Nat) (rest trim : Nat) :
    trimCount versions seq maxLen w rest trim = trim ∨
      ∃ v, versions[trimCount versions seq maxLen w rest trim]? = some v ∧ seq v ≤ w := by
  induction rest generalizing trim with
  | zero => exact Or.inl rfl
  | succ rest ih =>
    rw [trimCount]
    split_ifs with h1
    · split
      · exact Or.inl rfl
      · rename_i next hnext
        split_ifs with h2
        · exact Or.inl rfl
        · rcases ih (trim + 1) with h | h
          · rw [h]; exact Or.inr ⟨next, hnext, by omega⟩
          · exact Or.inr h
    · exact Or.inl rfl

/-- How many versions the trim takes from a chain with these sequences: down to the cap, and none
whose successor is later than `oldest`. -/
def trimmed (cap : Option Nat) (oldest : Nat) (seqs : List Nat) : Nat :=
  cap.elim 0 fun cap => min (seqs.length - max cap 1) (seqs.countP (· ≤ oldest) - 1)

theorem trimmed_le (cap : Option Nat) (oldest : Nat) (seqs : List Nat) :
    trimmed cap oldest seqs ≤ seqs.length - 1 := by
  have := List.countP_le_length (p := fun n => decide (n ≤ oldest)) (l := seqs)
  cases cap with
  | none => exact Nat.zero_le _
  | some cap => exact (Nat.min_le_right _ _).trans (by omega)

theorem trimCount_eq {α : Type} {versions : List α} {seq : α → Nat}
    (hs : (versions.map seq).Pairwise (· < ·)) (maxLen w : Nat) {rest trim : Nat}
    (hrest : versions.length ≤ rest + trim) :
    trimCount versions seq maxLen w rest trim =
      max trim (min (versions.length - maxLen) ((versions.map seq).countP (· ≤ w) - 1)) := by
  have hcount := List.countP_le_length (p := fun n => decide (n ≤ w)) (l := versions.map seq)
  rw [List.length_map] at hcount
  induction rest generalizing trim with
  | zero =>
    rw [trimCount]
    omega
  | succ rest ih =>
    rw [trimCount]
    split_ifs with hlong
    · cases hnext : versions[trim + 1]? with
      | none =>
        have := List.getElem?_eq_none_iff.mp hnext
        dsimp only
        omega
      | some next =>
        have hle := le_iff_lt_countP hs (j := trim + 1) (by rw [List.getElem?_map, hnext]; rfl) w
        dsimp only
        split_ifs with hlater
        · omega
        · rw [ih (by omega)]
          omega
    · omega

theorem keepFromCount_spec {α : Type} (versions : List α) (seq : α → Nat) (w : Nat)
    (rest keepFrom : Nat) :
    keepFromCount versions seq w rest keepFrom = keepFrom ∨
      ∃ v, versions[keepFromCount versions seq w rest keepFrom]? = some v ∧ seq v ≤ w := by
  induction rest generalizing keepFrom with
  | zero => exact Or.inl rfl
  | succ rest ih =>
    rw [keepFromCount]
    split
    · exact Or.inl rfl
    · rename_i next hnext
      split_ifs with h2
      · rcases ih (keepFrom + 1) with h | h
        · rw [h]; exact Or.inr ⟨next, hnext, h2⟩
        · exact Or.inr h
      · exact Or.inl rfl

theorem takeWhile_length_sorted {α : Type} {l : List α} {seq : α → Nat}
    (hs : l.Pairwise fun a b => seq a < seq b) (s i : Nat) :
    ∀ v, l[i]? = some v → (seq v ≤ s ↔ i < (l.takeWhile fun v => decide (seq v ≤ s)).length) := by
  induction l generalizing i with
  | nil => simp
  | cons a rest ih =>
    have hs' := List.pairwise_cons.mp hs
    intro v hv
    by_cases ha : seq a ≤ s
    · rw [List.takeWhile_cons_of_pos (by simpa using ha)]
      cases i with
      | zero => simp at hv; subst hv; simp [ha]
      | succ i =>
        rw [List.getElem?_cons_succ] at hv
        rw [ih hs'.2 i v hv]
        simp
    · rw [List.takeWhile_cons_of_neg (by simpa using ha)]
      simp only [List.length_nil, Nat.not_lt_zero, iff_false, Nat.not_le]
      cases i with
      | zero => simp at hv; subst hv; omega
      | succ i =>
        rw [List.getElem?_cons_succ] at hv
        have := hs'.1 v (List.mem_of_getElem? hv)
        omega

theorem newestVisibleIndexBy_cases {α : Type} {l : List α} {seq : α → Nat}
    (hs : l.Pairwise fun a b => seq a < seq b) (s : Nat) :
    (newestVisibleIndexBy l s seq = none ∧ ∀ v ∈ l, s < seq v) ∨
      ∃ i v, newestVisibleIndexBy l s seq = some i ∧ l[i]? = some v ∧ seq v ≤ s ∧
        ∀ j w, i < j → l[j]? = some w → s < seq w := by
  unfold newestVisibleIndexBy
  rcases List.eq_nil_or_concat l with rfl | ⟨init, last, rfl⟩
  · exact Or.inl ⟨rfl, by simp⟩
  rw [List.concat_eq_append] at hs ⊢
  rw [List.getLast?_concat]
  simp only
  split_ifs with hle
  · refine Or.inr ⟨init.length, last, by simp, by simp, hle, fun j w hj hw => ?_⟩
    rw [List.getElem?_eq_none (by rw [List.length_append]; exact hj)] at hw
    cases hw
  · have hsorted := takeWhile_length_sorted hs s
    unfold partitionPoint
    generalize hn : ((init ++ [last]).takeWhile fun v => decide (seq v ≤ s)).length = n at hsorted
    have hnle : n ≤ (init ++ [last]).length := by
      rw [← hn]; exact (List.takeWhile_sublist _).length_le
    cases n with
    | zero =>
      refine Or.inl ⟨rfl, fun v hv => ?_⟩
      obtain ⟨i, hi⟩ := List.getElem?_of_mem hv
      have := hsorted i v hi
      omega
    | succ n =>
      have hget := List.getElem?_eq_getElem (show n < (init ++ [last]).length by omega)
      refine Or.inr ⟨n, _, rfl, hget, (hsorted n _ hget).mpr (by omega), fun j w hj hw => ?_⟩
      have := (hsorted j w hw).not.mpr (by omega)
      omega

variable {i : Nat}

theorem asOf_at (hs : Ascending es) {s : Nat} {e : Nat × Bytes} (he : es[i]? = some e)
    (hle : e.1 ≤ s) (hnext : ∀ e', es[i + 1]? = some e' → s < e'.1) : asOf es s = some e.2 := by
  have hafter : ∀ e' ∈ es.drop (i + 1), s < e'.1 := by
    intro e' hmem
    cases hd : es.drop (i + 1) with
    | nil => simp [hd] at hmem
    | cons a rest =>
      have ha : es[i + 1]? = some a := by rw [← List.head?_drop, hd]; rfl
      have hs' : Ascending (es.drop (i + 1)) := hs.sublist (List.drop_sublist _ _)
      rw [hd] at hmem hs'
      rcases List.mem_cons.mp hmem with rfl | hmem
      · exact hnext _ ha
      · exact lt_trans (hnext a ha) ((List.pairwise_cons.mp hs').1 e' hmem)
  rw [← List.take_append_drop (i + 1) es, asOf_append_left hafter, List.take_add_one, he,
    Option.toList_some, asOf_snoc, if_pos hle]

/-! ## Stored entries -/

theorem isIdentical_iff (d : VersionData) : d.isIdentical = true ↔ d = .identical := by
  cases d <;> simp [VersionData.isIdentical]

variable [Platform]

structure Stores (chain : List BlockVersion) (es : Entries) : Prop where
  seqs : chain.map BlockVersion.commitSeq = es.map Prod.fst
  bytes : ∀ i, i < chain.length → resolveData chain i = es[i]?.map Prod.snd

variable {chain : List BlockVersion}

theorem Stores.length (h : Stores chain es) : chain.length = es.length := by
  simpa using congrArg List.length h.seqs

theorem stores_nil : Stores [] [] := ⟨rfl, by simp⟩

theorem Stores.eq_nil (h : Stores [] es) : es = [] :=
  List.eq_nil_of_length_eq_zero h.length.symm

theorem Stores.seq_at (h : Stores chain es) (i : Nat) :
    chain[i]?.map BlockVersion.commitSeq = es[i]?.map Prod.fst := by
  rw [← List.getElem?_map, ← List.getElem?_map, h.seqs]

theorem Stores.latest (h : Stores chain es) :
    chain.getLast?.map BlockVersion.commitSeq = es.getLast?.map Prod.fst := by
  rw [← List.getLast?_map, ← List.getLast?_map, h.seqs]

/-! ## One step of the resolver -/

/-- What the version at `i` holds by itself, `none` for a back reference or a bad frame. -/
def ownBytes : VersionData → Option Bytes
  | .full bytes => some bytes
  | .zstd bytes => Platform.zstdDecode bytes
  | .brotli bytes => Platform.brotliDecode bytes
  | .identical => none

variable {v : BlockVersion}

theorem resolveData_own (hv : chain[i]? = some v) (hid : v.data.isIdentical = false) :
    resolveData chain i = ownBytes v.data := by
  unfold resolveData
  cases i <;> rw [resolveDataWith, hv] <;> cases hd : v.data <;>
    simp_all [ownBytes, VersionData.isIdentical]

theorem resolveData_identical (hv : chain[i + 1]? = some v) (hid : v.data = .identical) :
    resolveData chain (i + 1) = resolveData chain i := by
  unfold resolveData
  rw [resolveDataWith, hv]
  simp [hid]

theorem resolveData_zero_identical (hv : chain[0]? = some v) (hid : v.data = .identical) :
    resolveData chain 0 = none := by
  unfold resolveData
  rw [resolveDataWith, hv]
  simp [hid]

theorem resolveData_none (hv : chain[i]? = none) : resolveData chain i = none := by
  unfold resolveData
  cases i <;> rw [resolveDataWith, hv] <;> rfl

theorem resolveData_congr {chain' : List BlockVersion} (h : ∀ j ≤ i, chain[j]? = chain'[j]?) :
    resolveData chain i = resolveData chain' i := by
  induction i with
  | zero =>
    unfold resolveData
    rw [resolveDataWith, resolveDataWith, h 0 le_rfl]
  | succ i ih =>
    have ih := ih fun j hj => h j (Nat.le_succ_of_le hj)
    unfold resolveData at ih ⊢
    rw [resolveDataWith, resolveDataWith, h (i + 1) le_rfl, ih]

theorem resolveData_append_left {rest : List BlockVersion} (h : i < chain.length) :
    resolveData (chain ++ rest) i = resolveData chain i :=
  resolveData_congr fun _ hj => List.getElem?_append_left (by omega)

variable {k : Nat} {bytes : Bytes}

theorem resolveData_set_full (hv : chain[k]? = some v) (hb : resolveData chain k = some bytes)
    (i : Nat) :
    resolveData (chain.set k { v with data := .full bytes }) i = resolveData chain i := by
  have hk : k < chain.length := (List.getElem?_eq_some_iff.mp hv).1
  have hset : (chain.set k { v with data := .full bytes })[k]? =
      some { v with data := .full bytes } := by simp [hk]
  have hself : resolveData (chain.set k { v with data := .full bytes }) k = some bytes :=
    resolveData_own hset rfl
  induction i with
  | zero =>
    by_cases h0 : k = 0
    · subst h0; rw [hself, hb]
    · exact resolveData_congr fun j hj => by
        rw [List.getElem?_set_ne (by omega)]
  | succ i ih =>
    by_cases hik : k = i + 1
    · subst hik; rw [hself, hb]
    · have hget : (chain.set k { v with data := .full bytes })[i + 1]? = chain[i + 1]? :=
        List.getElem?_set_ne hik
      cases hw : chain[i + 1]? with
      | none => rw [resolveData_none (hget.trans hw), resolveData_none hw]
      | some w =>
        rw [hw] at hget
        by_cases hid : w.data = .identical
        · rw [resolveData_identical hget hid, resolveData_identical hw hid, ih]
        · have hid' : w.data.isIdentical = false := by
            rw [← Bool.not_eq_true, isIdentical_iff]; exact hid
          rw [resolveData_own hget hid', resolveData_own hw hid']

theorem resolveData_drop (hv : chain[k]? = some v) (hid : v.data.isIdentical = false) (i : Nat) :
    resolveData (chain.drop k) i = resolveData chain (k + i) := by
  induction i with
  | zero =>
    have hv' : (chain.drop k)[0]? = some v := by simpa using hv
    rw [Nat.add_zero, resolveData_own hv hid, resolveData_own hv' hid]
  | succ i ih =>
    have hget : (chain.drop k)[i + 1]? = chain[k + i + 1]? := by
      rw [List.getElem?_drop, Nat.add_assoc]
    cases hw : chain[k + i + 1]? with
    | none => rw [resolveData_none (hget.trans hw), ← Nat.add_assoc, resolveData_none hw]
    | some w =>
      rw [hw] at hget
      by_cases hid' : w.data = .identical
      · rw [resolveData_identical hget hid', ← Nat.add_assoc, resolveData_identical hw hid', ih]
      · have hid'' : w.data.isIdentical = false := by
          rw [← Bool.not_eq_true, isIdentical_iff]; exact hid'
        rw [resolveData_own hget hid'', ← Nat.add_assoc, resolveData_own hw hid'']

/-! ## Pushing a version -/

/-- `d` stands for `bytes` at the end of `chain`. -/
def Encodes (chain : List BlockVersion) (d : VersionData) (bytes : Bytes) : Prop :=
  ownBytes d = some bytes ∨ d = .identical ∧ resolveData chain (chain.length - 1) = some bytes

theorem Encodes.newest (h : Encodes chain v.data bytes) :
    resolveData (chain ++ [v]) chain.length = some bytes := by
  have hget : (chain ++ [v])[chain.length]? = some v := by simp
  rcases h with hown | ⟨hid, hlast⟩
  · have hne : v.data.isIdentical = false := by
      cases hd : v.data <;> simp_all [ownBytes, VersionData.isIdentical]
    rw [resolveData_own hget hne, hown]
  · -- A back reference is only stored behind another version.
    cases hc : chain.length with
    | zero =>
      rw [resolveData_none (List.getElem?_eq_none (by omega))] at hlast
      simp at hlast
    | succ n =>
      rw [hc] at hget hlast
      rw [resolveData_identical hget hid, resolveData_append_left (by omega)]
      exact hlast

theorem Stores.push (h : Stores chain es) (hv : Encodes chain v.data bytes) :
    Stores (chain ++ [v]) (es ++ [(v.commitSeq, bytes)]) := by
  refine ⟨by simp [h.seqs], fun i hi => ?_⟩
  have hlen := h.length
  rcases Nat.lt_or_ge i chain.length with hlt | hge
  · rw [resolveData_append_left hlt, h.bytes i hlt, List.getElem?_append_left (by omega)]
  · obtain rfl : i = chain.length := by simp at hi; omega
    rw [hv.newest, hlen]
    simp

/-! ## Dropping a prefix -/

theorem makeChainHeadFull_map {β : Type} {f : BlockVersion → β}
    (hf : ∀ v data, f { v with data := data } = f v) (chain : List BlockVersion) (k : Nat) :
    (makeChainHeadFull chain k).map f = chain.map f := by
  unfold makeChainHeadFull
  split
  · rename_i v hv
    split_ifs
    · split
      · obtain ⟨hk, rfl⟩ := List.getElem?_eq_some_iff.mp hv
        rw [List.map_set]
        apply List.ext_getElem (by simp)
        intro i h1 h2
        by_cases hik : k = i
        · subst hik; simp [hf]
        · simp [List.getElem_set_ne hik]
      · rfl
    · rfl
  · rfl

theorem makeChainHeadFull_seqs (chain : List BlockVersion) (k : Nat) :
    (makeChainHeadFull chain k).map BlockVersion.commitSeq = chain.map BlockVersion.commitSeq :=
  makeChainHeadFull_map (fun _ _ => rfl) chain k

theorem dropPrefix_map {β : Type} {f : BlockVersion → β}
    (hf : ∀ v data, f { v with data := data } = f v) (chain : List BlockVersion) (k : Nat) :
    (dropPrefix chain k).map f = (chain.map f).drop k := by
  unfold dropPrefix
  split_ifs with h0
  · rw [List.map_drop, makeChainHeadFull_map hf]
  · obtain rfl : k = 0 := by omega
    rfl

theorem dropPrefix_seqs (chain : List BlockVersion) (k : Nat) :
    (dropPrefix chain k).map BlockVersion.commitSeq = (chain.map BlockVersion.commitSeq).drop k :=
  dropPrefix_map (fun _ _ => rfl) chain k

theorem dropPrefix_latest (hk : k = 0 ∨ ∃ v, chain[k]? = some v) :
    (dropPrefix chain k).getLast?.map BlockVersion.commitSeq =
      chain.getLast?.map BlockVersion.commitSeq := by
  rw [← List.getLast?_map, ← List.getLast?_map, dropPrefix_seqs]
  rcases hk with rfl | ⟨v, hv⟩
  · rfl
  · have hlt := (List.getElem?_eq_some_iff.mp hv).1
    rw [List.getLast?_drop, if_neg (by simpa using hlt)]

theorem trimToCap_latest (chain : List BlockVersion) (maxLen w : Nat) :
    (trimBlockChainToCap chain maxLen w).getLast?.map BlockVersion.commitSeq =
      chain.getLast?.map BlockVersion.commitSeq :=
  dropPrefix_latest ((trimCount_spec chain BlockVersion.commitSeq maxLen w chain.length 0).imp_right
    fun ⟨v, hv, _⟩ => ⟨v, hv⟩)

theorem pruneChain_latest (chain : List BlockVersion) (w : Nat) :
    (pruneChain chain w).getLast?.map BlockVersion.commitSeq =
      chain.getLast?.map BlockVersion.commitSeq :=
  dropPrefix_latest ((keepFromCount_spec chain BlockVersion.commitSeq w chain.length 0).imp_right
    fun ⟨v, hv, _⟩ => ⟨v, hv⟩)

theorem resolveData_drop_none (hk : resolveData chain k = none)
    (h : resolveData chain (k + i) = some bytes) : resolveData (chain.drop k) i = some bytes := by
  induction i with
  | zero => simp [hk] at h
  | succ i ih =>
    have hget : (chain.drop k)[i + 1]? = chain[k + i + 1]? := by
      rw [List.getElem?_drop, Nat.add_assoc]
    rw [← Nat.add_assoc] at h
    cases hw : chain[k + i + 1]? with
    | none => simp [resolveData_none hw] at h
    | some w =>
      rw [hw] at hget
      by_cases hid : w.data = .identical
      · rw [resolveData_identical hw hid] at h
        rw [resolveData_identical hget hid, ih h]
      · have hid' : w.data.isIdentical = false := by
          rw [← Bool.not_eq_true, isIdentical_iff]; exact hid
        rw [resolveData_own hw hid'] at h
        rw [resolveData_own hget hid', h]

theorem resolveData_dropPrefix (h : resolveData chain (k + i) = some bytes) :
    resolveData (dropPrefix chain k) i = some bytes := by
  unfold dropPrefix
  split_ifs with h0
  · unfold makeChainHeadFull
    cases hv : chain[k]? with
    | none =>
      have hlen := List.getElem?_eq_none_iff.mp hv
      rw [resolveData_none (List.getElem?_eq_none (by omega))] at h
      simp at h
    | some v =>
      have hk := (List.getElem?_eq_some_iff.mp hv).1
      by_cases hid : v.data.isIdentical = true
      · cases hb : resolveData chain k with
        | none => simpa [hid, hb] using resolveData_drop_none hb h
        | some own =>
          have hset : (chain.set k { v with data := .full own })[k]? =
              some { v with data := .full own } := by simp [hk]
          have hdrop := resolveData_drop hset rfl i
          rw [resolveData_set_full hv hb, h] at hdrop
          simpa [hid, hb] using hdrop
      · have hdrop := resolveData_drop hv (by simpa using hid) i
        rw [h] at hdrop
        simpa [hid] using hdrop
  · obtain rfl : k = 0 := by omega
    rwa [Nat.zero_add] at h

theorem dropPrefix_length (chain : List BlockVersion) (k : Nat) :
    (dropPrefix chain k).length = chain.length - k := by
  simpa using congrArg List.length (dropPrefix_seqs chain k)

theorem makeChainHeadFull_snoc (hk : k < chain.length) (v : BlockVersion) :
    makeChainHeadFull (chain ++ [v]) k = makeChainHeadFull chain k ++ [v] := by
  unfold makeChainHeadFull
  rw [List.getElem?_append_left hk, resolveData_append_left hk]
  split
  · split_ifs
    · split
      · rw [List.set_append_left _ _ hk]
      · rfl
    · rfl
  · rfl

theorem dropPrefix_snoc_dropLast (hk : k ≤ chain.length) (v : BlockVersion) :
    (dropPrefix (chain ++ [v]) k).dropLast = dropPrefix chain k := by
  rcases Nat.lt_or_ge k chain.length with hlt | hge
  · unfold dropPrefix
    split_ifs
    · have hlen : k ≤ (makeChainHeadFull chain k).length := by
        have := congrArg List.length (makeChainHeadFull_seqs chain k)
        simp only [List.length_map] at this
        omega
      rw [makeChainHeadFull_snoc hlt, List.drop_append_of_le_length hlen, List.dropLast_concat]
    · rw [List.dropLast_concat]
  · have hleft : ((dropPrefix (chain ++ [v]) k).dropLast).length = 0 := by
      rw [List.length_dropLast, dropPrefix_length, List.length_append, List.length_singleton]
      omega
    have hright : (dropPrefix chain k).length = 0 := by
      rw [dropPrefix_length]
      omega
    rw [List.eq_nil_of_length_eq_zero hleft, List.eq_nil_of_length_eq_zero hright]

theorem trimToCap_newest (maxLen w : Nat) (h : resolveData chain (chain.length - 1) = some bytes) :
    resolveData (trimBlockChainToCap chain maxLen w)
      ((trimBlockChainToCap chain maxLen w).length - 1) = some bytes := by
  unfold trimBlockChainToCap
  have hk := trimCount_spec chain BlockVersion.commitSeq maxLen w chain.length 0
  generalize trimCount chain BlockVersion.commitSeq maxLen w chain.length 0 = k at hk
  rw [dropPrefix_length]
  apply resolveData_dropPrefix
  rcases hk with rfl | ⟨v, hv, -⟩
  · simpa using h
  · have hlt := (List.getElem?_eq_some_iff.mp hv).1
    rwa [show k + (chain.length - k - 1) = chain.length - 1 by omega]

theorem Stores.dropPrefix (h : Stores chain es) (k : Nat) :
    Stores (dropPrefix chain k) (es.drop k) := by
  refine ⟨by rw [dropPrefix_seqs, h.seqs, List.map_drop], fun i hi => ?_⟩
  rw [dropPrefix_length] at hi
  have hlt : k + i < es.length := by have := h.length; omega
  have hes : es[k + i]? = some es[k + i] := List.getElem?_eq_getElem hlt
  have hb := h.bytes (k + i) (by omega)
  rw [hes] at hb
  rw [resolveData_dropPrefix hb, List.getElem?_drop, hes]
  rfl

theorem Stores.trimmed (h : Stores chain es) {w : Nat}
    (hk : k = 0 ∨ ∃ v, chain[k]? = some v ∧ v.commitSeq ≤ w) :
    ∃ post, Trimmed w es post ∧ Stores (Mvcc.dropPrefix chain k) post := by
  rcases hk with rfl | ⟨v, hv, hw⟩
  · exact ⟨es, Trimmed.refl w es, by simpa [Mvcc.dropPrefix] using h⟩
  · have hseq := h.seq_at k
    rw [hv, Option.map_some] at hseq
    cases he : es[k]? with
    | none => simp [he] at hseq
    | some e =>
      rw [he, Option.map_some, Option.some.injEq] at hseq
      refine ⟨es.drop k, ⟨es.take k, (List.take_append_drop k es).symm, Or.inr ⟨e, ?_, ?_⟩⟩,
        h.dropPrefix k⟩
      · rw [List.head?_drop, he]
      · rw [← hseq]; exact hw

theorem Stores.trimToCap (h : Stores chain es) (maxLen : Nat) (w : Nat) :
    ∃ post, Trimmed w es post ∧ Stores (trimBlockChainToCap chain maxLen w) post :=
  h.trimmed (trimCount_spec chain BlockVersion.commitSeq maxLen w chain.length 0)

theorem Stores.prune (h : Stores chain es) (w : Nat) :
    ∃ post, Trimmed w es post ∧ Stores (pruneChain chain w) post :=
  h.trimmed (keepFromCount_spec chain BlockVersion.commitSeq w chain.length 0)

/-! ## Reading -/

theorem Stores.ascending (h : Stores chain es) (hs : Ascending es) :
    chain.Pairwise fun a b => a.commitSeq < b.commitSeq := by
  rw [← List.pairwise_map (f := BlockVersion.commitSeq) (R := (· < ·)), h.seqs, List.pairwise_map]
  exact hs

theorem Stores.visible (h : Stores chain es) (hs : Ascending es) (s : Nat) :
    (newestVisibleIndex chain s = none ∧ asOf es s = none) ∨
      ∃ i v e, newestVisibleIndex chain s = some i ∧ chain[i]? = some v ∧ es[i]? = some e ∧
        v.commitSeq = e.1 ∧ e.1 ≤ s ∧ (∀ e' ∈ es, e'.1 ≤ s → e'.1 ≤ e.1) ∧
          asOf es s = some e.2 := by
  -- The two lists agree on the sequence at every index.
  have hseq : ∀ {j : Nat} {e : Nat × Bytes}, es[j]? = some e →
      ∃ v, chain[j]? = some v ∧ BlockVersion.commitSeq v = e.1 := by
    intro j e he
    have := h.seq_at j
    rw [he, Option.map_some] at this
    exact Option.map_eq_some_iff.mp this
  rcases newestVisibleIndexBy_cases (h.ascending hs) s with
    ⟨hidx, hall⟩ | ⟨i, v, hidx, hv, hle, hafter⟩
  · refine Or.inl ⟨hidx, asOf_eq_none.mpr fun e he => ?_⟩
    obtain ⟨j, hj⟩ := List.getElem?_of_mem he
    obtain ⟨v, hv, hve⟩ := hseq hj
    rw [← hve]
    exact hall v (List.mem_of_getElem? hv)
  · obtain ⟨e, he⟩ : ∃ e, es[i]? = some e :=
      ⟨_, List.getElem?_eq_getElem (h.length ▸ (List.getElem?_eq_some_iff.mp hv).1)⟩
    obtain ⟨v', hv', hve⟩ := hseq he
    obtain rfl : v' = v := Option.some.inj (hv'.symm.trans hv)
    have hgt : ∀ j e', i < j → es[j]? = some e' → s < e'.1 := by
      intro j e' hj he'
      obtain ⟨w, hw, hwe⟩ := hseq he'
      rw [← hwe]
      exact hafter j w hj hw
    refine Or.inr ⟨i, v', e, hidx, hv, he, hve, by omega, fun e' he' hle' => ?_,
      asOf_at hs he (by omega) fun e' => hgt (i + 1) e' (Nat.lt_succ_self i)⟩
    obtain ⟨j, hj⟩ := List.getElem?_of_mem he'
    rcases Nat.lt_trichotomy j i with hlt | rfl | hlt
    · obtain ⟨hjl, rfl⟩ := List.getElem?_eq_some_iff.mp hj
      obtain ⟨hil, rfl⟩ := List.getElem?_eq_some_iff.mp he
      exact le_of_lt (List.pairwise_iff_getElem.mp hs j i hjl hil hlt)
    · rw [Option.some.inj (hj.symm.trans he)]
    · have := hgt j e' hlt hj
      omega

/-- **The index lookup and the resolver together read the newest visible entry.** -/
theorem Stores.read (h : Stores chain es) (hs : Ascending es) (s : Nat) :
    resolveVersionBytesAtOrBefore chain s = asOf es s := by
  unfold resolveVersionBytesAtOrBefore
  rcases h.visible hs s with ⟨hidx, hnone⟩ | ⟨i, v, e, hidx, hv, he, -, -, -, hsome⟩
  · rw [hidx, hnone]
    rfl
  · rw [hidx, hsome, Option.bind_some, h.bytes i (List.getElem?_eq_some_iff.mp hv).1, he]
    rfl

end FrankenFs.Mvcc
