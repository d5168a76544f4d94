import InlineSchema.Entries
import Mathlib

/-! # Laws of ordered mappings

A key is looked up at its first entry, and changing the value of a key leaves the keys and all
other values alone. Where the keys are distinct an entry is found again under its own key.
-/
namespace InlineSchema.Entries
variable {α β : Type}

@[simp] theorem get?_nil (key : String) : get? ([] : Entries α) key = none := rfl

@[simp] theorem get?_cons (p : String × α) (m : Entries α) (key : String) :
    get? (p :: m) key = if key = p.1 then some p.2 else get? m key := by
  obtain ⟨k, v⟩ := p
  by_cases h : key = k
  · simp [get?, h]
  · have hk : (key == k) = false := by simpa using h
    simp only [get?, List.lookup_cons, hk, if_neg h]

theorem mem_of_get? {m : Entries α} {key : String} {v : α} (h : get? m key = some v) :
    (key, v) ∈ m := by
  induction m with
  | nil => simp at h
  | cons p m ih =>
    rw [get?_cons] at h
    split at h
    next hk => cases h; subst hk; exact List.mem_cons_self
    next => exact List.mem_cons_of_mem _ (ih h)

theorem get?_eq_none_iff {m : Entries α} {key : String} : get? m key = none ↔ key ∉ keys m := by
  induction m with
  | nil => simp [keys]
  | cons p m ih =>
    rw [get?_cons]
    split
    next hk => simp [keys, hk]
    next hk => simp only [keys, List.map_cons, List.mem_cons, hk, false_or] at ih ⊢; exact ih

theorem get?_isSome_iff {m : Entries α} {key : String} :
    (get? m key).isSome = true ↔ key ∈ keys m := by
  rw [Option.isSome_iff_ne_none, ne_eq, get?_eq_none_iff, not_not]

/-- With distinct keys every entry is the one that its key finds. -/
theorem get?_of_mem {m : Entries α} (hm : (keys m).Nodup) {key : String} {v : α}
    (h : (key, v) ∈ m) : get? m key = some v := by
  induction m with
  | nil => simp at h
  | cons p m ih =>
    obtain ⟨hp, hm⟩ := List.nodup_cons.mp hm
    rw [get?_cons]
    rcases List.mem_cons.mp h with rfl | h
    · simp
    · have hne : key ≠ p.1 := by
        rintro rfl
        exact hp (List.mem_map.mpr ⟨_, h, rfl⟩)
      rw [if_neg hne]
      exact ih hm h

theorem mem_iff_get? {m : Entries α} (hm : (keys m).Nodup) {p : String × α} :
    p ∈ m ↔ get? m p.1 = some p.2 := ⟨get?_of_mem hm, mem_of_get?⟩

theorem get?_append (a b : Entries α) (key : String) :
    get? (a ++ b) key = (get? a key).or (get? b key) := by
  induction a with
  | nil => rfl
  | cons p a ih =>
    rw [List.cons_append, get?_cons, get?_cons, ih]
    split <;> rfl

theorem get?_filter (f : String → Bool) (m : Entries α) (key : String) :
    get? (m.filter fun p => f p.1) key = if f key then get? m key else none := by
  induction m with
  | nil => exact (ite_self none).symm
  | cons p m ih =>
    rw [List.filter_cons, get?_cons]
    by_cases hk : key = p.1
    · subst hk
      split
      next => rw [get?_cons, if_pos rfl, if_pos rfl]
      next hf => rw [ih, if_neg hf]
    · rw [if_neg hk]
      split
      next => rw [get?_cons, if_neg hk, ih]
      next => rw [ih]

theorem get?_erase (key : String) (m : Entries α) (k : String) :
    get? (erase key m) k = if k = key then none else get? m k := by
  have h := get?_filter (fun k => key != k) m k
  by_cases hk : k = key
  · rw [if_pos hk]
    simpa [erase, hk] using h
  · rw [if_neg hk]
    simpa [erase, Ne.symm hk] using h

/-- The entries of a mapping with the one key `k`. -/
theorem eq_singleton_of_keys {m : Entries α} {k : String} (hk : keys m = [k]) :
    ∃ v, m = [(k, v)] := by
  obtain ⟨p, rfl, hp⟩ := List.map_eq_singleton_iff.mp hk
  exact ⟨p.2, by rw [← hp]⟩

/-- The same of two mappings with the same keys. -/
theorem exists_eq_singleton {m : Entries α} {k : String} {w : β} (hm : (keys m).Nodup)
    (h : ∀ key, key ∈ keys [(k, w)] ↔ key ∈ keys m) : ∃ v, m = [(k, v)] := by
  apply eq_singleton_of_keys
  rw [← List.perm_singleton, List.perm_ext_iff_of_nodup hm (List.nodup_singleton k)]
  exact fun key => (h key).symm

theorem keys_map (f : String × α → β) (m : Entries α) :
    keys (m.map fun p => (p.1, f p)) = keys m := by
  rw [keys, List.map_map]
  rfl

theorem get?_map_keyed (f : String → α → β) (m : Entries α) (key : String) :
    get? (m.map fun p => (p.1, f p.1 p.2)) key = (get? m key).map (f key) := by
  induction m with
  | nil => rfl
  | cons p m ih =>
    rw [List.map_cons, get?_cons, get?_cons, ih]
    split
    next hk => rw [hk]; rfl
    next => rfl

theorem get?_map (f : α → β) (m : Entries α) (key : String) :
    get? (m.map fun p => (p.1, f p.2)) key = (get? m key).map f :=
  get?_map_keyed (fun _ => f) m key

/-! ## Changing a value -/

theorem modify_cons (key : String) (f : α → α) (p : String × α) (m : Entries α) :
    modify key f (p :: m) = if key = p.1 then (p.1, f p.2) :: m else p :: modify key f m := by
  obtain ⟨k, v⟩ := p
  by_cases h : key = k <;> simp [modify, h]

@[simp] theorem keys_modify (key : String) (f : α → α) (m : Entries α) :
    keys (modify key f m) = keys m := by
  induction m with
  | nil => rfl
  | cons p m ih =>
    rw [modify_cons]
    split
    · rfl
    · simpa [keys] using ih

theorem get?_modify_self (m : Entries α) (key : String) (f : α → α) :
    get? (modify key f m) key = (get? m key).map f := by
  induction m with
  | nil => rfl
  | cons p m ih =>
    rw [modify_cons, get?_cons]
    split
    next hk => simp [hk]
    next hk => rw [get?_cons, if_neg hk, ih]

theorem get?_modify_of_ne (m : Entries α) {key k : String} (f : α → α) (h : k ≠ key) :
    get? (modify key f m) k = get? m k := by
  induction m with
  | nil => rfl
  | cons p m ih =>
    rw [modify_cons, get?_cons]
    split
    next hk => rw [get?_cons, if_neg (hk ▸ h), if_neg (hk ▸ h)]
    next hk => rw [get?_cons, ih]

theorem exists_of_mem_modify {m : Entries α} {key : String} {f : α → α} {p : String × α}
    (h : p ∈ modify key f m) : p ∈ m ∨ ∃ v, (key, v) ∈ m ∧ p = (key, f v) := by
  induction m with
  | nil => cases h
  | cons q m ih =>
    rw [modify_cons] at h
    split at h
    next hk =>
      rcases List.mem_cons.mp h with rfl | h
      · exact .inr ⟨q.2, hk ▸ List.mem_cons_self, by rw [hk]⟩
      · exact .inl (List.mem_cons_of_mem _ h)
    next =>
      rcases List.mem_cons.mp h with rfl | h
      · exact .inl List.mem_cons_self
      · rcases ih h with h | ⟨v, hv, rfl⟩
        · exact .inl (List.mem_cons_of_mem _ h)
        · exact .inr ⟨v, List.mem_cons_of_mem _ hv, rfl⟩

theorem mem_modify {m : Entries α} {key : String} {v : α} {p : String × α}
    (h : p ∈ modify key (fun _ => v) m) : p = (key, v) ∨ p ∈ m := by
  rcases exists_of_mem_modify h with h | ⟨_, _, h⟩
  · exact .inr h
  · exact .inl h

/-- A value that the change leaves as it is leaves the mapping as it is. -/
theorem modify_eq_self {m : Entries α} {key : String} {f : α → α} {v : α} (hv : get? m key = some v)
    (hf : f v = v) : modify key f m = m := by
  induction m with
  | nil => rfl
  | cons p m ih =>
    rw [get?_cons] at hv
    rw [modify_cons]
    split at hv
    next hk =>
      cases hv
      rw [if_pos hk, hf]
    next hk => rw [if_neg hk, ih hv]

theorem modify_modify (m : Entries α) (key : String) (f g : α → α) :
    modify key g (modify key f m) = modify key (fun v => g (f v)) m := by
  induction m with
  | nil => rfl
  | cons p m ih =>
    rw [modify_cons, modify_cons]
    split
    next hk => rw [modify_cons, if_pos hk]
    next hk => rw [modify_cons, if_neg hk, ih]

/-! ## Two mappings side by side -/

theorem eq_of_mem_zip_self {xs : List α} {p : α × α} (h : p ∈ xs.zip xs) :
    p.1 = p.2 := by
  induction xs with
  | nil => cases h
  | cons x xs ih =>
    rcases List.mem_cons.mp h with rfl | h
    · rfl
    · exact ih h

/-- What stands beside each other in two lists stands beside a common item of a third. -/
theorem exists_mem_zip_zip {γ : Type} {xs : List γ} {ys : List α} {zs : List β}
    (hl : xs.length = ys.length) {p : α × β} (hp : p ∈ ys.zip zs) :
    ∃ x, (x, p.1) ∈ xs.zip ys ∧ (x, p.2) ∈ xs.zip zs := by
  induction xs generalizing ys zs with
  | nil =>
    rw [List.length_eq_zero_iff.mp hl.symm] at hp
    cases hp
  | cons x xs ih =>
    cases ys with
    | nil => cases hl
    | cons y ys =>
      cases zs with
      | nil => cases hp
      | cons z zs =>
        rcases List.mem_cons.mp hp with rfl | hp
        · exact ⟨x, List.mem_cons_self, List.mem_cons_self⟩
        · obtain ⟨w, hy, hz⟩ := ih (Nat.succ.inj hl) hp
          exact ⟨w, List.mem_cons_of_mem _ hy, List.mem_cons_of_mem _ hz⟩

theorem exists_mem_zip_of_mem {xs : List α} {ys : List β} (hl : xs.length = ys.length) {y : β}
    (hy : y ∈ ys) : ∃ x ∈ xs, (x, y) ∈ xs.zip ys := by
  induction xs generalizing ys with
  | nil =>
    rw [List.length_eq_zero_iff.mp hl.symm] at hy
    cases hy
  | cons x xs ih =>
    cases ys with
    | nil => cases hy
    | cons z ys =>
      rcases List.mem_cons.mp hy with rfl | hy
      · exact ⟨x, List.mem_cons_self, List.mem_cons_self⟩
      · obtain ⟨w, hw, hp⟩ := ih (Nat.succ.inj hl) hy
        exact ⟨w, List.mem_cons_of_mem _ hw, List.mem_cons_of_mem _ hp⟩

theorem fst_eq_of_mem_zip {m : Entries α} {m' : Entries β} (hk : keys m = keys m')
    {p : (String × α) × (String × β)} (h : p ∈ m.zip m') : p.1.1 = p.2.1 := by
  induction m generalizing m' with
  | nil => cases h
  | cons q m ih =>
    cases m' with
    | nil => cases h
    | cons q' m' =>
      simp only [keys, List.map_cons, List.cons.injEq] at hk
      rcases List.mem_cons.mp h with rfl | h
      · exact hk.1
      · exact ih hk.2 h

/-- The entries beside each other after the value of a key has been changed on one side. -/
theorem mem_zip_modify {m m' : Entries α} {key : String} {v : α} (hv : get? m key = some v)
    (v' : α) {p : (String × α) × (String × α)} (h : p ∈ m.zip m') :
    p ∈ (modify key (fun _ => v') m).zip m' ∨
      p.1 = (key, v) ∧ ((key, v'), p.2) ∈ (modify key (fun _ => v') m).zip m' := by
  induction m generalizing m' with
  | nil => cases hv
  | cons q m ih =>
    cases m' with
    | nil => cases h
    | cons q' m' =>
      rw [get?_cons] at hv
      rw [modify_cons]
      obtain ⟨k, w⟩ := q
      split at hv
      next hk =>
        cases hv
        subst hk
        rw [if_pos rfl]
        rcases List.mem_cons.mp h with rfl | h
        · exact .inr ⟨rfl, List.mem_cons_self⟩
        · exact .inl (List.mem_cons_of_mem _ h)
      next hk =>
        rw [if_neg hk]
        rcases List.mem_cons.mp h with rfl | h
        · exact .inl List.mem_cons_self
        · rcases ih hv h with h | ⟨he, h⟩
          · exact .inl (List.mem_cons_of_mem _ h)
          · exact .inr ⟨he, List.mem_cons_of_mem _ h⟩

/-- A change of one key leaves the other entries beside what they stood beside. -/
theorem mem_zip_of_modify {m : Entries α} {ys : List β} {key : String} {f : α → α}
    {p : (String × α) × β} (h : p ∈ (modify key f m).zip ys) (hne : p.1.1 ≠ key) : p ∈ m.zip ys := by
  induction m generalizing ys with
  | nil => exact h
  | cons q m ih =>
    cases ys with
    | nil => rw [List.zip_nil_right] at h; cases h
    | cons y ys =>
      rw [modify_cons] at h
      split at h
      next hk =>
        rcases List.mem_cons.mp h with rfl | h
        · exact absurd hk.symm hne
        · exact List.mem_cons_of_mem _ h
      next =>
        rcases List.mem_cons.mp h with rfl | h
        · exact List.mem_cons_self
        · exact List.mem_cons_of_mem _ (ih h)

theorem eq_of_zip {xs ys : List α} (hl : xs.length = ys.length)
    (h : ∀ p ∈ xs.zip ys, p.2 = p.1) : ys = xs := by
  induction xs generalizing ys with
  | nil => exact List.length_eq_zero_iff.mp hl.symm
  | cons x xs ih =>
    cases ys with
    | nil => cases hl
    | cons y ys =>
      have hhead : y = x := h (x, y) List.mem_cons_self
      have htail := ih (Nat.succ.inj hl) fun p hp => h p (List.mem_cons_of_mem _ hp)
      rw [hhead, htail]

theorem map_congr_of_zip {γ : Type} {xs : List α} {ys : List β} (hl : xs.length = ys.length)
    {f : α → γ} {f' : β → γ} (h : ∀ p ∈ xs.zip ys, f' p.2 = f p.1) : ys.map f' = xs.map f := by
  induction xs generalizing ys with
  | nil => rw [List.length_eq_zero_iff.mp hl.symm]; rfl
  | cons x xs ih =>
    cases ys with
    | nil => cases hl
    | cons y ys =>
      have hhead : f' y = f x := h (x, y) List.mem_cons_self
      have htail := ih (Nat.succ.inj hl) fun p hp => h p (List.mem_cons_of_mem _ hp)
      rw [List.map_cons, List.map_cons, hhead, htail]

theorem length_eq_of_keys {m : Entries α} {m' : Entries β} (hk : keys m = keys m') :
    m.length = m'.length := by
  simpa [keys] using congrArg List.length hk

theorem eq_of_zip_values {m m' : Entries α} (hk : keys m = keys m')
    (h : ∀ p ∈ m.zip m', p.2.2 = p.1.2) : m' = m :=
  eq_of_zip (length_eq_of_keys hk) fun p hp =>
    Prod.ext (fst_eq_of_mem_zip hk hp).symm (h p hp)

/-- Values of one key in two mappings with the same keys stand beside each other. -/
theorem exists_mem_zip_of_get? {m : Entries α} {m' : Entries β} (hk : keys m = keys m')
    {key : String} {v : α} (hv : get? m key = some v) :
    ∃ v', get? m' key = some v' ∧ ((key, v), (key, v')) ∈ m.zip m' := by
  induction m generalizing m' with
  | nil => cases hv
  | cons q m ih =>
    cases m' with
    | nil => cases hk
    | cons q' m' =>
      obtain ⟨k, w⟩ := q
      obtain ⟨k', w'⟩ := q'
      simp only [keys, List.map_cons, List.cons.injEq] at hk
      obtain ⟨rfl, hk⟩ := hk
      rw [get?_cons] at hv ⊢
      split at hv
      next he => cases hv; subst he; exact ⟨w', if_pos rfl, List.mem_cons_self⟩
      next he =>
        obtain ⟨v', hv', hz⟩ := ih hk hv
        exact ⟨v', by rw [if_neg he, hv'], List.mem_cons_of_mem _ hz⟩

theorem get?_eq_none_of_keys {m : Entries α} {m' : Entries β} (hk : keys m = keys m') {key : String}
    (h : get? m key = none) : get? m' key = none := by
  rw [get?_eq_none_iff] at h ⊢
  rwa [← hk]

/-! ## Mappings from a list -/

theorem insert_cons (key : String) (value : α) (p : String × α) (m : Entries α) :
    insert key value (p :: m) =
      if key = p.1 then (p.1, value) :: m else p :: insert key value m := by
  obtain ⟨k, v⟩ := p
  by_cases h : key = k <;> simp [insert, h]

theorem mem_insert {key : String} {value : α} {m : Entries α} {p : String × α}
    (h : p ∈ insert key value m) : p = (key, value) ∨ p ∈ m := by
  induction m with
  | nil => exact .inl (by simpa [insert] using h)
  | cons q m ih =>
    rw [insert_cons] at h
    split at h
    next hk =>
      rcases List.mem_cons.mp h with h | h
      · exact .inl (by rw [h, hk])
      · exact .inr (List.mem_cons_of_mem _ h)
    next =>
      rcases List.mem_cons.mp h with h | h
      · exact .inr (h ▸ List.mem_cons_self)
      · exact (ih h).imp_right (List.mem_cons_of_mem _)

theorem nodup_insert {m : Entries α} (hm : (keys m).Nodup) (key : String) (value : α) :
    (keys (insert key value m)).Nodup := by
  induction m with
  | nil => simp [insert, keys]
  | cons p m ih =>
    obtain ⟨hp, hm'⟩ := List.nodup_cons.mp hm
    rw [insert_cons]
    split
    next => exact hm
    next hk =>
      refine List.nodup_cons.mpr ⟨?_, ih hm'⟩
      intro h
      obtain ⟨q, hq, he⟩ := List.mem_map.mp h
      rcases mem_insert hq with rfl | hq
      · exact hk he
      · exact hp (List.mem_map.mpr ⟨q, hq, he⟩)

/-- A new key goes last. -/
theorem insert_of_not_mem {m : Entries α} {key : String} (h : key ∉ keys m) (value : α) :
    insert key value m = m ++ [(key, value)] := by
  induction m with
  | nil => rfl
  | cons p m ih =>
    simp only [keys, List.map_cons, List.mem_cons, not_or] at h
    rw [insert_cons, if_neg h.1, ih h.2, List.cons_append]

/-- A key that is there keeps its place. -/
theorem insert_of_mem {m : Entries α} {key : String} (h : key ∈ keys m) (value : α) :
    insert key value m = modify key (fun _ => value) m := by
  induction m with
  | nil => cases h
  | cons p m ih =>
    rw [insert_cons, modify_cons]
    split
    next => rfl
    next hne => rw [ih ((List.mem_cons.mp h).resolve_left hne)]

theorem get?_insert (m : Entries α) (key : String) (value : α) (k : String) :
    get? (insert key value m) k = if k = key then some value else get? m k := by
  induction m with
  | nil => simp [insert]
  | cons p m ih =>
    rw [insert_cons]
    split
    next hp =>
      rw [get?_cons, get?_cons, hp]
      split <;> rfl
    next hp =>
      rw [get?_cons, get?_cons, ih]
      by_cases hk : k = p.1
      · have hne : k ≠ key := fun he => hp (he.symm.trans hk)
        rw [if_pos hk, if_neg hne, if_pos hk]
      · rw [if_neg hk, if_neg hk]

theorem insert_map (f : α → β) (key : String) (value : α) (m : Entries α) :
    insert key (f value) (m.map fun p => (p.1, f p.2)) =
      (insert key value m).map fun p => (p.1, f p.2) := by
  induction m with
  | nil => rfl
  | cons p m ih =>
    rw [List.map_cons, insert_cons, insert_cons]
    split
    · rfl
    · rw [ih, List.map_cons]

private theorem foldl_insert_of_nodup (l : List (String × α)) :
    ∀ m : Entries α, (keys (m ++ l)).Nodup →
      l.foldl (fun m (k, v) => insert k v m) m = m ++ l := by
  induction l with
  | nil => simp
  | cons p l ih =>
    intro m hm
    have hp : p.1 ∉ keys m := by
      intro h
      have hd := (List.nodup_append.mp (by simpa [keys] using hm)).2.2
      exact hd p.1 h p.1 (by simp) rfl
    change l.foldl _ (insert p.1 p.2 m) = _
    rw [insert_of_not_mem hp, ih _ (by simpa using hm)]
    simp

/-- A list with distinct keys is the mapping that is made from it. -/
theorem ofList_of_nodup {l : List (String × α)} (h : (keys l).Nodup) : ofList l = l :=
  foldl_insert_of_nodup l [] (by simpa using h)

theorem nodup_ofList (l : List (String × α)) : (keys (ofList l)).Nodup := by
  suffices h : ∀ m : Entries α, (keys m).Nodup →
      (keys (l.foldl (fun m (k, v) => insert k v m) m)).Nodup from h [] List.nodup_nil
  induction l with
  | nil => exact fun m hm => hm
  | cons p l ih => exact fun m hm => ih _ (nodup_insert hm p.1 p.2)

theorem mem_of_mem_ofList {l : List (String × α)} {p : String × α} (h : p ∈ ofList l) : p ∈ l := by
  suffices hs : ∀ m : Entries α, p ∈ l.foldl (fun m (k, v) => insert k v m) m → p ∈ l ∨ p ∈ m from
    (hs [] h).resolve_right List.not_mem_nil
  clear h
  induction l with
  | nil => exact fun _ h => .inr h
  | cons q l ih =>
    intro m h
    rcases ih _ h with h | h
    · exact .inl (List.mem_cons_of_mem _ h)
    · have h : p ∈ insert q.1 q.2 m := h
      rcases mem_insert h with rfl | h
      · exact .inl List.mem_cons_self
      · exact .inr h

/-- The first entry of a list stays the first. -/
theorem exists_ofList_cons (p : String × α) (l : List (String × α)) :
    ∃ v m, ofList (p :: l) = (p.1, v) :: m := by
  suffices h : ∀ (v : α) (m : Entries α),
      ∃ w m', l.foldl (fun m p => insert p.1 p.2 m) ((p.1, v) :: m) = (p.1, w) :: m' from
    h p.2 []
  induction l with
  | nil => exact fun v m => ⟨v, m, rfl⟩
  | cons q l ih =>
    intro v m
    rw [List.foldl_cons, insert_cons]
    split
    · exact ih _ m
    · exact ih v _

theorem ofList_map (f : α → β) (l : List (String × α)) :
    ofList (l.map fun p => (p.1, f p.2)) = (ofList l).map fun p => (p.1, f p.2) := by
  suffices h : ∀ m : Entries α,
      (l.map fun p => (p.1, f p.2)).foldl (fun m (k, v) => insert k v m)
        (m.map fun p => (p.1, f p.2)) =
      (l.foldl (fun m (k, v) => insert k v m) m).map fun p => (p.1, f p.2) from h []
  induction l with
  | nil => exact fun _ => rfl
  | cons p l ih =>
    intro m
    change (l.map _).foldl _ (insert p.1 (f p.2) (m.map fun p => (p.1, f p.2))) = _
    rw [insert_map]
    exact ih _

end InlineSchema.Entries
