import Mathlib.Data.List.AList
import Mathlib.Data.List.Induction

/-! # Finite maps with `retain` and `collect`

A hash map whose iteration order is not observed is modelled by Mathlib's `AList`, which
carries the uniqueness of its keys as a field.  Two operations of hash maps are missing
there and are added here:

* `retain f m` visits every entry, may rewrite its value in place and drops it when `f`
  returns `none`; `lookup_retain` says that it acts on each key by itself.
* `collect l` inserts the pairs of `l` one after another, so that a later pair overwrites
  an earlier one with the same key.  `collect` answers only pairs of `l` (`mem_of_lookup_collect`),
  answers on exactly the keys of `l` (`mem_collect`), and loses no pair when the keys are
  distinct (`lookup_collect_of_nodup`).

`dedupOn` keeps the first element of every class of a key function, which is what a loop
that guards `push` with the insertion into a set of seen keys computes.  `values m` lists the values of a map. -/

/-- A finite map from `α` to `β`. -/
abbrev AssocMap (α β : Type*) := AList (fun _ : α => β)

namespace AssocMap

variable {α β ι : Type*}

/-! ### Retain -/

/-- The entries that `f` keeps, with the values it gives them. -/
def retainEntries (f : α → β → Option β) (l : List (Sigma fun _ : α => β)) :
    List (Sigma fun _ : α => β) :=
  l.filterMap fun e => (f e.1 e.2).map (Sigma.mk e.1)

theorem mem_retainEntries {f : α → β → Option β} {l : List (Sigma fun _ : α => β)} {a : α} {b : β} :
    ⟨a, b⟩ ∈ retainEntries f l ↔ ∃ b₀, ⟨a, b₀⟩ ∈ l ∧ f a b₀ = some b := by
  simp only [retainEntries, List.mem_filterMap, Option.map_eq_some_iff]
  constructor
  · rintro ⟨⟨a', b₀⟩, he, b', hb, h⟩
    cases h
    exact ⟨b₀, he, hb⟩
  · rintro ⟨b₀, he, hb⟩
    exact ⟨⟨a, b₀⟩, he, b, hb, rfl⟩

theorem keys_retainEntries_sublist (f : α → β → Option β) (l : List (Sigma fun _ : α => β)) :
    (retainEntries f l).keys.Sublist l.keys := by
  induction l with
  | nil => exact List.Sublist.refl _
  | cons e l ih =>
      cases h : f e.1 e.2 with
      | none =>
          have e₁ : retainEntries f (e :: l) = retainEntries f l := by simp [retainEntries, h]
          rw [e₁, List.keys_cons]
          exact ih.cons _
      | some b =>
          have e₁ : retainEntries f (e :: l) = ⟨e.1, b⟩ :: retainEntries f l := by
            simp [retainEntries, h]
          rw [e₁, List.keys_cons, List.keys_cons]
          exact ih.cons_cons _

/-- Visit every entry, keeping it with a possibly changed value or dropping it. -/
def retain (f : α → β → Option β) (m : AssocMap α β) : AssocMap α β :=
  ⟨retainEntries f m.entries, List.Nodup.sublist (keys_retainEntries_sublist f m.entries) m.nodupKeys⟩

variable [DecidableEq α]

/-- `retain` acts on every key by itself. -/
@[simp] theorem lookup_retain (f : α → β → Option β) (m : AssocMap α β) (a : α) :
    (retain f m).lookup a = (m.lookup a).bind (f a) := by
  apply Option.ext
  intro b
  rw [← Option.mem_def, AList.mem_lookup_iff, Option.bind_eq_some_iff]
  simp only [retain, mem_retainEntries, ← AList.mem_lookup_iff, Option.mem_def]

/-! ### Insertion at a key -/

/-- The value at one key after an insertion at another or the same key. -/
theorem lookup_insert_eq_ite (m : AssocMap α β) (a a' : α) (b : β) :
    (AList.insert a b m).lookup a' = if a' = a then some b else m.lookup a' := by
  split_ifs with h
  · subst h
    exact AList.lookup_insert m
  · exact AList.lookup_insert_ne h

/-! ### Values -/

/-- The values of a map, in no order that matters. -/
def values (m : AssocMap α β) : List β := m.entries.map Sigma.snd

theorem mem_values {m : AssocMap α β} {b : β} : b ∈ values m ↔ ∃ a, m.lookup a = some b := by
  simp only [values, List.mem_map, ← Option.mem_def, AList.mem_lookup_iff]
  constructor
  · rintro ⟨⟨a, b⟩, he, rfl⟩
    exact ⟨a, he⟩
  · rintro ⟨a, he⟩
    exact ⟨⟨a, b⟩, he, rfl⟩

theorem values_insert {m : AssocMap α β} {a : α} (h : m.lookup a = none) (b : β) :
    values (AList.insert a b m) = b :: values m := by
  rw [values, AList.entries_insert_of_notMem (AList.lookup_eq_none.mp h)]
  rfl

theorem values_insert_eq_cons (m : AssocMap α β) (a : α) (b : β) :
    values (AList.insert a b m) = b :: values (AList.erase a m) := by
  rw [values, AList.entries_insert]
  rfl

theorem values_erase_of_none {m : AssocMap α β} {a : α} (h : m.lookup a = none) :
    values (AList.erase a m) = values m := by
  have he : (AList.erase a m).entries = m.entries := List.kerase_of_notMem_keys (AList.lookup_eq_none.mp h)
  rw [values, values, he]

theorem perm_values_erase {m : AssocMap α β} {a : α} {b : β} (h : m.lookup a = some b) :
    (b :: values (AList.erase a m)).Perm (values m) := by
  have hmem : a ∈ m.entries.keys := AList.lookup_isSome.mp (by rw [h]; rfl)
  obtain ⟨b', l₁, l₂, -, hl, herase⟩ := List.exists_of_kerase hmem
  have hb : b' = b := by
    have hin : b' ∈ m.lookup a := AList.mem_lookup_iff.mpr (hl ▸ by simp)
    rw [h] at hin
    exact (Option.some.inj hin).symm
  rw [values, values, hl, show (AList.erase a m).entries = l₁ ++ l₂ from herase, hb]
  simp only [List.map_append, List.map_cons]
  exact List.perm_middle.symm

/-! ### Collect -/

/-- Insert the pairs of a list one after another; the last pair of a key stays. -/
def collect (l : List (α × β)) : AssocMap α β :=
  l.foldl (fun m p => AList.insert p.1 p.2 m) ∅

theorem collect_concat (l : List (α × β)) (p : α × β) :
    collect (l ++ [p]) = AList.insert p.1 p.2 (collect l) := by
  simp [collect]

theorem mem_of_lookup_collect {l : List (α × β)} {a : α} {b : β}
    (h : (collect l).lookup a = some b) : (a, b) ∈ l := by
  induction l using List.reverseRecOn with
  | nil => simp [collect] at h
  | append_singleton l p ih =>
      rw [collect_concat, lookup_insert_eq_ite] at h
      split_ifs at h with hp
      · obtain rfl := Option.some.inj h
        simp [hp]
      · exact List.mem_append_left _ (ih h)

theorem mem_collect {l : List (α × β)} {a : α} : a ∈ collect l ↔ a ∈ l.map Prod.fst := by
  induction l using List.reverseRecOn with
  | nil => simp [collect]
  | append_singleton l p ih =>
      rw [collect_concat, AList.mem_insert, ih, List.map_append, List.mem_append]
      simp [or_comm]

theorem lookup_collect_eq_none {l : List (α × β)} {a : α} :
    (collect l).lookup a = none ↔ a ∉ l.map Prod.fst := by
  rw [AList.lookup_eq_none, mem_collect]

/-- A key that has at most one value is found with it. -/
theorem lookup_collect_of_unique {l : List (α × β)} {a : α} {o : Option β}
    (h : ∀ b, (a, b) ∈ l ↔ o = some b) : (collect l).lookup a = o := by
  cases hc : (collect l).lookup a with
  | none =>
      cases o with
      | none => rfl
      | some b => exact absurd (List.mem_map_of_mem ((h b).mpr rfl)) (lookup_collect_eq_none.mp hc)
  | some b => exact ((h b).mp (mem_of_lookup_collect hc)).symm

/-- With distinct keys every pair is found again. -/
theorem lookup_collect_of_nodup {l : List (α × β)} {a : α} {b : β} (hl : (l.map Prod.fst).Nodup)
    (h : (a, b) ∈ l) : (collect l).lookup a = some b := by
  refine lookup_collect_of_unique fun b' => ⟨fun hb' => ?_, fun hb' => ?_⟩
  · have he : (a, b) = (a, b') := List.inj_on_of_nodup_map hl h hb' rfl
    exact congrArg some (Prod.mk.inj he).2
  · rwa [← Option.some.inj hb']

/-- Collecting the values of a map that fails on none of the pairs. -/
theorem lookup_collect_filterMap {γ : Type*} {g : β → Option γ} {l : List (α × β)}
    (hg : ∀ p ∈ l, (g p.2).isSome) (a : α) :
    (collect (l.filterMap fun p => (g p.2).map fun c => (p.1, c))).lookup a =
      ((collect l).lookup a).bind g := by
  induction l using List.reverseRecOn with
  | nil => simp [collect]
  | append_singleton l p ih =>
      have ih := ih fun q hq => hg q (List.mem_append_left _ hq)
      obtain ⟨c, hc⟩ := Option.isSome_iff_exists.mp (hg p (by simp))
      rw [List.filterMap_append, List.filterMap_cons_some (b := (p.1, c)) (by rw [hc, Option.map_some]),
        List.filterMap_nil, collect_concat, collect_concat, lookup_insert_eq_ite, lookup_insert_eq_ite, ih]
      split_ifs
      · rw [Option.bind_some, hc]
      · rfl

/-! ### First elements of the classes of a key -/

variable [DecidableEq ι]

/-- The elements of `l` whose key is neither in `seen` nor the key of an earlier element. -/
def dedupOn (key : β → ι) : List ι → List β → List β
  | _, [] => []
  | seen, b :: l => if key b ∈ seen then dedupOn key seen l else b :: dedupOn key (key b :: seen) l

theorem mem_of_mem_dedupOn {key : β → ι} {x : β} :
    ∀ {seen : List ι} {l : List β}, x ∈ dedupOn key seen l → x ∈ l ∧ key x ∉ seen
  | seen, [], h => by simp [dedupOn] at h
  | seen, b :: l, h => by
      rw [dedupOn] at h
      split_ifs at h with hb
      · obtain ⟨h₁, h₂⟩ := mem_of_mem_dedupOn h
        exact ⟨List.mem_cons_of_mem _ h₁, h₂⟩
      · rcases List.mem_cons.mp h with rfl | h
        · exact ⟨List.mem_cons_self, hb⟩
        · obtain ⟨h₁, h₂⟩ := mem_of_mem_dedupOn h
          exact ⟨List.mem_cons_of_mem _ h₁, fun hs => h₂ (List.mem_cons_of_mem _ hs)⟩

theorem nodup_keys_dedupOn (key : β → ι) :
    ∀ (seen : List ι) (l : List β), ((dedupOn key seen l).map key).Nodup
  | _, [] => by simp [dedupOn]
  | seen, b :: l => by
      rw [dedupOn]
      split_ifs with hb
      · exact nodup_keys_dedupOn key seen l
      · rw [List.map_cons, List.nodup_cons]
        refine ⟨?_, nodup_keys_dedupOn key _ l⟩
        intro h
        obtain ⟨x, hx, hk⟩ := List.mem_map.mp h
        exact (mem_of_mem_dedupOn hx).2 (hk ▸ List.mem_cons_self)

/-- Every element of `l` is represented by one with the same key. -/
theorem exists_mem_dedupOn {key : β → ι} {x : β} :
    ∀ {seen : List ι} {l : List β}, x ∈ l → key x ∉ seen → ∃ y ∈ dedupOn key seen l, key y = key x
  | seen, [], h, _ => by simp at h
  | seen, b :: l, h, hs => by
      rw [dedupOn]
      rcases List.mem_cons.mp h with rfl | h
      · rw [if_neg hs]
        exact ⟨x, List.mem_cons_self, rfl⟩
      · split_ifs with hb
        · exact exists_mem_dedupOn h hs
        · by_cases hk : key b = key x
          · exact ⟨b, List.mem_cons_self, hk⟩
          · have hs' : key x ∉ key b :: seen := by
              simp only [List.mem_cons, not_or]
              exact ⟨Ne.symm hk, hs⟩
            obtain ⟨y, hy, hyk⟩ := exists_mem_dedupOn h hs'
            exact ⟨y, List.mem_cons_of_mem _ hy, hyk⟩

/-- Where the key separates the elements of `l`, nothing is lost. -/
theorem mem_dedupOn_of_inj {key : β → ι} {l : List β}
    (hinj : ∀ x ∈ l, ∀ y ∈ l, key x = key y → x = y) {x : β} :
    x ∈ dedupOn key [] l ↔ x ∈ l := by
  constructor
  · exact fun h => (mem_of_mem_dedupOn h).1
  · intro h
    have hs : key x ∉ ([] : List ι) := by simp
    obtain ⟨y, hy, hk⟩ := exists_mem_dedupOn h hs
    obtain rfl := hinj y (mem_of_mem_dedupOn hy).1 x h hk
    exact hy

end AssocMap
