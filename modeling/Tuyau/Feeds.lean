import Mathlib.Data.List.Infix
import Mathlib.Data.Set.Function

/-! # Following a feed of comings and goings

Sources come up and go down, each at most once and in this order, and publish both on one log.  A source may
have come up, or gone down, some time before the log says so; what it has said is then ahead of the log.
`Feed` holds both, and `Feed.Le` compares two moments: neither what was said nor what was published is taken
back.

A follower that knows the sources by a key starts with those that are up at one moment, and applies what is
published after an earlier moment, by inserting and erasing keys.  It may so apply an event that its start had
taken into account already, which does no harm: `follow_eq` says that when the log has caught up, the follower
has the sources that are up. -/

namespace Feeds

variable {κ ι : Type*}

/-- What was published in order, and what each source has said so far: `true` when it comes up and `false` when
it goes down. -/
structure Feed (κ : Type*) where
  log : List (κ × Bool)
  said : κ → List Bool

section

variable [DecidableEq κ]

/-- What a log has of one source. -/
def heard (log : List (κ × Bool)) (c : κ) : List Bool :=
  log.filterMap fun x => if x.1 = c then some x.2 else none

theorem heard_append (log log' : List (κ × Bool)) (c : κ) :
    heard (log ++ log') c = heard log c ++ heard log' c :=
  List.filterMap_append

theorem heard_singleton (x : κ × Bool) (c : κ) : heard [x] c = if x.1 = c then [x.2] else [] := by
  by_cases h : x.1 = c <;> simp [heard, h]

theorem heard_eq_nil {log : List (κ × Bool)} {c : κ} : heard log c = [] ↔ ∀ x ∈ log, x.1 ≠ c := by
  simp [heard]

end

namespace Feed

variable (f : Feed κ)

/-- The log is behind what was said, and every source comes up and goes down once at most. -/
structure Ok [DecidableEq κ] : Prop where
  behind : ∀ c, heard f.log c <+: f.said c
  shape : ∀ c, f.said c <+: [true, false]

/-- The sources that are up. -/
def up : Set κ := {c | f.said c = [true]}

/-- The log has caught up. -/
def Settled [DecidableEq κ] : Prop := ∀ c, heard f.log c = f.said c

/-- `f'` is later than `f`. -/
structure Le (f f' : Feed κ) : Prop where
  log : f.log <+: f'.log
  said : ∀ c, f.said c <+: f'.said c

variable {f} {f₁ f₂ f₃ : Feed κ}

theorem Le.refl (f : Feed κ) : Le f f := ⟨List.prefix_rfl, fun _ => List.prefix_rfl⟩

theorem Le.trans (h : Le f₁ f₂) (h' : Le f₂ f₃) : Le f₁ f₃ :=
  ⟨h.log.trans h'.log, fun c => (h.said c).trans (h'.said c)⟩

end Feed

/-- Apply what was published to a view of the keys that are up. -/
def follow (key : κ → ι) (view : Set ι) (log : List (κ × Bool)) : Set ι :=
  log.foldl (fun view x => if x.2 then insert (key x.1) view else view \ {key x.1}) view

section

variable {key : κ → ι} {view : Set ι} {log : List (κ × Bool)} {sources : Set κ} {c : κ}

theorem follow_concat (x : κ × Bool) :
    follow key view (log ++ [x]) =
      if x.2 then insert (key x.1) (follow key view log) else follow key view log \ {key x.1} := by
  rw [follow, List.foldl_append]
  rfl

/-- The last event of a source decides on its key, if there is one. -/
theorem mem_follow [DecidableEq κ] (hinj : Set.InjOn key sources) (hlog : ∀ x ∈ log, x.1 ∈ sources) (hc : c ∈ sources) :
    key c ∈ follow key view log ↔
      (heard log c).getLast? = some true ∨ heard log c = [] ∧ key c ∈ view := by
  induction log using List.reverseRecOn with
  | nil => simp [follow, heard]
  | append_singleton log x ih =>
      have hx : x.1 ∈ sources := hlog x (by simp)
      have hold := ih fun y hy => hlog y (List.mem_append_left _ hy)
      rw [follow_concat, heard_append, heard_singleton]
      by_cases hxc : x.1 = c
      · rw [if_pos hxc, hxc]
        cases x.2 <;> simp
      · have hkey : key c ≠ key x.1 := fun h => hxc (hinj hc hx h).symm
        rw [if_neg hxc, List.append_nil, ← hold]
        split_ifs <;> simp [hkey]

/-- A follower knows only keys it started with or was told. -/
theorem exists_of_mem_follow {i : ι} (h : i ∈ follow key view log) :
    i ∈ view ∨ ∃ x ∈ log, i = key x.1 := by
  induction log using List.reverseRecOn with
  | nil => exact .inl h
  | append_singleton log x ih =>
      have hold : i ∈ follow key view log → i ∈ view ∨ ∃ y ∈ log ++ [x], i = key y.1 := by
        intro h
        rcases ih h with h | ⟨y, hy, hi⟩
        · exact .inl h
        · exact .inr ⟨y, List.mem_append_left _ hy, hi⟩
      rw [follow_concat] at h
      split_ifs at h
      · rcases h with h | h
        · exact .inr ⟨x, by simp, h⟩
        · exact hold h
      · exact hold h.1

end

/-- What is said ends with a coming up only as long as the source has not gone down. -/
theorem getLast?_eq_true {said : List Bool} (h : said <+: [true, false]) :
    said.getLast? = some true ↔ said = [true] := by
  rcases List.prefix_cons_iff.mp h with rfl | ⟨rest, rfl, hrest⟩
  · simp
  · rcases List.prefix_cons_iff.mp hrest with rfl | ⟨last, rfl, hlast⟩
    · simp
    · rw [List.prefix_nil.mp hlast]
      simp

/-- **A follower is right when the log has caught up.**  It may start from what is up at any moment `f₁` after
the one, `f₀`, from which on it hears the log. -/
theorem follow_eq [DecidableEq κ] {f₀ f₁ f₂ : Feed κ} {key : κ → ι} (hok₀ : f₀.Ok) (hok₂ : f₂.Ok) (h₀₁ : f₀.Le f₁)
    (h₁₂ : f₁.Le f₂) (hsettled : f₂.Settled) (hinj : Set.InjOn key {c | f₂.said c ≠ []}) :
    follow key (key '' f₁.up) (f₂.log.drop f₀.log.length) = key '' f₂.up := by
  obtain ⟨later, hlater⟩ := (h₀₁.trans h₁₂).log
  rw [← hlater, List.drop_left]
  have hup : ∀ {f : Feed κ}, f.Le f₂ → ∀ c ∈ f.up, f₂.said c ≠ [] := by
    intro f hle c hc hnil
    have hle := hle.said c
    rw [hnil, show f.said c = [true] from hc] at hle
    cases List.prefix_nil.mp hle
  have hsources : ∀ x ∈ later, x.1 ∈ {c | f₂.said c ≠ []} := by
    intro x hx hnil
    rw [← hsettled, heard_eq_nil] at hnil
    exact hnil x (hlater ▸ List.mem_append_right _ hx) rfl
  -- what matters at a source is what it said after the first moment
  have hmem : ∀ c, f₂.said c ≠ [] → (key c ∈ follow key (key '' f₁.up) later ↔ c ∈ f₂.up) := by
    intro c hc
    rw [mem_follow hinj hsources hc]
    have hsaid : f₂.said c = heard f₀.log c ++ heard later c := by
      rw [← hsettled, ← hlater, heard_append]
    cases hrest : heard later c with
    | nil =>
        have hsame : f₁.said c = f₂.said c := by
          refine (h₁₂.said c).eq_of_length_le ?_
          rw [hsaid, hrest, List.append_nil]
          exact ((hok₀.behind c).trans (h₀₁.said c)).length_le
        rw [hinj.mem_image_iff (hup h₁₂) hc]
        simp [Feed.up, hsame]
    | cons b rest =>
        have hlast := getLast?_eq_true (hok₂.shape c)
        rw [hsaid, hrest, List.getLast?_append] at hlast
        rw [show c ∈ f₂.up ↔ f₂.said c = [true] from Iff.rfl, hsaid, hrest, ← hlast]
        simp [List.getLast?_cons]
  ext i
  constructor
  · intro hi
    have hkey : ∃ c, f₂.said c ≠ [] ∧ i = key c := by
      rcases exists_of_mem_follow hi with ⟨c, hc, rfl⟩ | ⟨x, hx, rfl⟩
      · exact ⟨c, hup h₁₂ c hc, rfl⟩
      · exact ⟨x.1, hsources x hx, rfl⟩
    obtain ⟨c, hc, rfl⟩ := hkey
    exact ⟨c, (hmem c hc).mp hi, rfl⟩
  · rintro ⟨c, hc, rfl⟩
    exact (hmem c (hup (.refl f₂) c hc)).mpr hc

end Feeds
