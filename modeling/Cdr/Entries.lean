/-! # Entries by name

Association lists sorted by name, each name once. Names compare by code point, which is also the
order of their UTF-8 bytes. `get?_insert` and `get?_erase` say what the operations do to a look-up,
`sorted_insert` and `sorted_erase` that they keep the order.
-/

namespace Cdr

/-- Entries in ascending order of their names. -/
abbrev Entries (α : Type) := List (String × α)

namespace Entries

variable {α : Type}

/-- Names ascend, so no name stands twice. -/
def Sorted (entries : Entries α) : Prop :=
  entries.Pairwise fun a b => a.1 < b.1

def get? (entries : Entries α) (name : String) : Option α :=
  (entries.find? fun entry => entry.1 == name).map Prod.snd

/-- Puts a value under a name, in place of the one that was there. -/
def insert (name : String) (value : α) : Entries α → Entries α
  | [] => [(name, value)]
  | entry :: rest =>
    if name < entry.1 then (name, value) :: entry :: rest
    else if name = entry.1 then (name, value) :: rest
    else entry :: insert name value rest

/-- Takes a name out. -/
def erase (name : String) (entries : Entries α) : Entries α :=
  entries.filter fun entry => entry.1 != name

/-- The entries of a list; of two with one name the later stays. -/
def ofList (pairs : List (String × α)) : Entries α :=
  pairs.foldl (fun entries pair => insert pair.1 pair.2 entries) []

def names (entries : Entries α) : List String :=
  entries.map Prod.fst

theorem get?_nil (name : String) : get? ([] : Entries α) name = none := rfl

theorem get?_cons (entry : String × α) (rest : Entries α) (name : String) :
    get? (entry :: rest) name = if entry.1 = name then some entry.2 else get? rest name := by
  by_cases h : entry.1 = name <;> simp [get?, h]

theorem get?_insert (entries : Entries α) (name other : String) (value : α) :
    (insert name value entries).get? other =
      if name = other then some value else entries.get? other := by
  induction entries with
  | nil => simp [insert, get?_cons, get?_nil]
  | cons entry rest ih =>
    by_cases hlt : name < entry.1
    · simp [insert, hlt, get?_cons]
    · by_cases heq : name = entry.1
      · subst heq
        by_cases h : entry.1 = other <;> simp [insert, get?_cons, h]
      · simp only [insert, hlt, heq, if_false, get?_cons, ih]
        by_cases h : entry.1 = other
        · have : name ≠ other := fun hn => heq (hn.trans h.symm)
          simp [h, this]
        · simp [h]

theorem get?_erase (entries : Entries α) (name other : String) :
    (erase name entries).get? other = if name = other then none else entries.get? other := by
  induction entries with
  | nil => simp [erase, get?_nil]
  | cons entry rest ih =>
    by_cases hname : entry.1 = name
    · have hstep : erase name (entry :: rest) = erase name rest := by simp [erase, hname]
      rw [hstep, ih, get?_cons]
      by_cases h : name = other
      · simp [h]
      · simp [hname, h]
    · have hstep : erase name (entry :: rest) = entry :: erase name rest := by
        simp [erase, hname]
      rw [hstep, get?_cons, get?_cons, ih]
      by_cases h : entry.1 = other
      · have : name ≠ other := fun hn => hname (h.trans hn.symm)
        simp [h, this]
      · simp [h]

theorem mem_insert_name {entries : Entries α} {name : String} {value : α} {entry : String × α}
    (h : entry ∈ insert name value entries) : entry.1 = name ∨ entry ∈ entries := by
  induction entries with
  | nil => simp_all [insert]
  | cons first rest ih =>
    simp only [insert] at h
    split at h
    · simp only [List.mem_cons] at h ⊢
      rcases h with rfl | h
      · exact Or.inl rfl
      · exact Or.inr h
    · split at h
      · simp only [List.mem_cons] at h ⊢
        rcases h with rfl | h
        · exact Or.inl rfl
        · exact Or.inr (Or.inr h)
      · simp only [List.mem_cons] at h ⊢
        rcases h with rfl | h
        · exact Or.inr (Or.inl rfl)
        · exact (ih h).imp id Or.inr

theorem sorted_insert {entries : Entries α} (h : entries.Sorted) (name : String) (value : α) :
    (insert name value entries).Sorted := by
  induction entries with
  | nil => simp [Sorted, insert]
  | cons entry rest ih =>
    have hrest : Sorted rest := List.Pairwise.of_cons h
    have hfirst : ∀ other ∈ rest, entry.1 < other.1 := fun other hm => List.rel_of_pairwise_cons h hm
    simp only [insert]
    split
    next hlt =>
      refine List.Pairwise.cons ?_ h
      intro other hm
      rcases List.mem_cons.1 hm with rfl | hm
      · exact hlt
      · exact String.lt_trans hlt (hfirst other hm)
    next hlt =>
      split
      next heq =>
        subst heq
        exact List.Pairwise.cons hfirst hrest
      next heq =>
        refine List.Pairwise.cons ?_ (ih hrest)
        intro other hm
        rcases mem_insert_name hm with hname | hm
        · rw [hname]
          exact Decidable.byContradiction fun hge =>
            heq (String.le_antisymm (String.not_lt.1 hge) (String.not_lt.1 hlt))
        · exact hfirst other hm

theorem sorted_erase {entries : Entries α} (h : entries.Sorted) (name : String) :
    (erase name entries).Sorted :=
  List.Pairwise.filter _ h

theorem get?_eq_none_iff (entries : Entries α) (name : String) :
    entries.get? name = none ↔ name ∉ entries.names := by
  induction entries with
  | nil => simp [get?_nil, names]
  | cons entry rest ih =>
    rw [get?_cons]
    by_cases h : entry.1 = name
    · simp [h, names]
    · have hne : name ≠ entry.1 := fun heq => h heq.symm
      simp only [h, if_false, ih, names, List.map_cons, List.mem_cons, hne, false_or]

/-- A name that stands before all others stands nowhere behind them. -/
theorem get?_eq_none_of_lt {entries : Entries α} {name : String}
    (h : ∀ entry ∈ entries, name < entry.1) : entries.get? name = none := by
  rw [get?_eq_none_iff]
  intro hmem
  obtain ⟨entry, hentry, rfl⟩ := List.mem_map.1 hmem
  exact String.lt_irrefl _ (h entry hentry)

/-- Entries are what look-ups find. -/
theorem ext_of_sorted {a b : Entries α} (ha : a.Sorted) (hb : b.Sorted)
    (h : ∀ name, a.get? name = b.get? name) : a = b := by
  induction a generalizing b with
  | nil =>
    cases b with
    | nil => rfl
    | cons entry rest =>
      have hfirst := h entry.1
      rw [get?_nil, get?_cons, if_pos rfl] at hfirst
      cases hfirst
  | cons entry rest ih =>
    obtain ⟨hfirst, hrest⟩ := List.pairwise_cons.1 ha
    cases b with
    | nil =>
      have hfound := h entry.1
      rw [get?_nil, get?_cons, if_pos rfl] at hfound
      cases hfound
    | cons other others =>
      obtain ⟨hother, hothers⟩ := List.pairwise_cons.1 hb
      have hle : ∀ {x y : String × α} {xs ys : Entries α}, (∀ z ∈ ys, y.1 < z.1) →
          get? (x :: xs) x.1 = get? (y :: ys) x.1 → ¬x.1 < y.1 := by
        intro x y xs ys hys hget hlt
        have hnone : get? (y :: ys) x.1 = none := by
          apply get?_eq_none_of_lt
          intro z hz
          rcases List.mem_cons.1 hz with rfl | hz
          · exact hlt
          · exact String.lt_trans hlt (hys z hz)
        rw [hnone, get?_cons, if_pos rfl] at hget
        cases hget
      have hname : entry.1 = other.1 := by
        apply String.le_antisymm
        · exact String.not_lt.1 (hle hfirst (h other.1).symm)
        · exact String.not_lt.1 (hle hother (h entry.1))
      have hvalue : entry.2 = other.2 := by
        have hget := h entry.1
        rw [get?_cons, get?_cons, if_pos rfl, if_pos hname.symm] at hget
        exact Option.some.inj hget
      have hentry : entry = other := Prod.ext hname hvalue
      subst hentry
      refine congrArg (entry :: ·) (ih hrest hothers fun name => ?_)
      by_cases heq : entry.1 = name
      · subst heq
        rw [get?_eq_none_of_lt hfirst, get?_eq_none_of_lt hother]
      · have hget := h name
        rw [get?_cons, get?_cons, if_neg heq, if_neg heq] at hget
        exact hget

/-- Puts values under their names, one after the other. -/
def insertAll (pairs : List (String × α)) (entries : Entries α) : Entries α :=
  pairs.foldl (fun entries pair => insert pair.1 pair.2 entries) entries

theorem sorted_insertAll {entries : Entries α} (h : entries.Sorted) (pairs : List (String × α)) :
    (insertAll pairs entries).Sorted := by
  induction pairs generalizing entries with
  | nil => exact h
  | cons pair pairs ih => exact ih (sorted_insert h pair.1 pair.2)

/-- Where every pair agrees with one look-up, so do the entries they are put into. -/
theorem get?_insertAll {pairs : List (String × α)} {find : String → Option α}
    (h : ∀ pair ∈ pairs, find pair.1 = some pair.2) (entries : Entries α) (name : String) :
    (insertAll pairs entries).get? name =
      if name ∈ pairs.map Prod.fst then find name else entries.get? name := by
  induction pairs generalizing entries with
  | nil => simp [insertAll]
  | cons pair pairs ih =>
    have hrest := ih (fun other hmem => h other (List.mem_cons_of_mem _ hmem))
      (insert pair.1 pair.2 entries)
    have hstep : insertAll (pair :: pairs) entries =
        insertAll pairs (insert pair.1 pair.2 entries) := rfl
    rw [hstep, hrest, get?_insert]
    by_cases hmem : name ∈ pairs.map Prod.fst
    · simp [hmem]
    · by_cases hname : pair.1 = name
      · subst hname
        simp [hmem, h pair List.mem_cons_self]
      · have hne : name ≠ pair.1 := fun heq => hname heq.symm
        simp [hmem, hname, hne]

/-- Entries are put together from all of their pairs, in whatever order and however often. -/
theorem insertAll_eq {pairs : List (String × α)} {entries : Entries α} (hsorted : entries.Sorted)
    (hpairs : ∀ pair ∈ pairs, entries.get? pair.1 = some pair.2)
    (hnames : ∀ name ∈ entries.names, name ∈ pairs.map Prod.fst) :
    insertAll pairs [] = entries := by
  refine ext_of_sorted (sorted_insertAll List.Pairwise.nil pairs) hsorted fun name => ?_
  rw [get?_insertAll hpairs]
  by_cases hmem : name ∈ pairs.map Prod.fst
  · rw [if_pos hmem]
  · rw [if_neg hmem, get?_nil]
    exact ((get?_eq_none_iff entries name).2 fun h => hmem (hnames name h)).symm

end Entries

end Cdr
