import JavaFormat.Files.Discovery
import Mathlib.Data.List.Nodup

/-!
# No file is found twice

Discovery is refused just if a path leads nowhere or the name of something that has to be
looked at is too long. Otherwise the files that it finds lead to different locations, whatever
paths and links they are reached by.
-/

namespace JavaFormat.Store

variable (s : Store)

/-- Why nothing is found at some paths. -/
inductive Refuses (paths : List Path) : Refusal → Prop
  /-- A path leads nowhere. -/
  | missing {p : Path} (hp : p ∈ paths) (hnone : s.resolve? p = none)
    (hshort : s.lookup p ≠ .error .nameTooLong) : Refuses paths (.missing p)
  /-- A path, or one of those below a directory, leads to a name that is too long. -/
  | tooLong {p q : Path} (hp : p ∈ paths) (hq : q = p ∨ q ∈ s.listing p)
    (hlong : s.lookup q = .error .nameTooLong) : Refuses paths (.fault ⟨.nameTooLong, q⟩)

/-- Where there is no way on, there is nothing, or a name is too long. -/
theorem isAbsence_obstacle (l : Location) :
    (s.obstacle l).isAbsence = true ∨ s.obstacle l = .nameTooLong := by
  rw [obstacle]
  split
  · exact .inl rfl
  · split
    · exact .inl rfl
    · exact .inr rfl

/-- A way that comes to no end does so because there is nothing, or because a name is too long,
if this is so of what comes at a link. -/
theorem isAbsence_walk {jump : Location → Path → List String → Except OsError Location}
    (hjump : ∀ l target rest e, jump l target rest = .error e →
      e.isAbsence = true ∨ e = .nameTooLong) {l : Location} {parts : List String} {e : OsError}
    (h : s.walk jump l parts = .error e) : e.isAbsence = true ∨ e = .nameTooLong := by
  induction parts generalizing l with
  | nil =>
    rw [walk] at h
    split at h
    · cases h
    · exact Except.error.inj h ▸ s.isAbsence_obstacle l
  | cons part rest ih =>
    rw [walk] at h
    split at h
    · exact Except.error.inj h ▸ s.isAbsence_obstacle l
    · split at h
      · exact ih h
      · split at h
        · exact hjump _ _ _ _ h
        · exact ih h

/-- A path that leads nowhere does so because there is nothing, or because a name is too
long. -/
theorem isAbsence_lookup {p : Path} {e : OsError} (h : s.lookup p = .error e) :
    e.isAbsence = true ∨ e = .nameTooLong := by
  have hfollow : ∀ (budget : Nat) (l : Location) (parts : List String) (e : OsError),
      s.follow budget l parts = .error e → e.isAbsence = true ∨ e = .nameTooLong := by
    intro budget
    induction budget with
    | zero =>
      intro l parts e h
      refine s.isAbsence_walk (fun _ _ _ e he => ?_) h
      exact .inl (Except.error.inj he ▸ rfl)
    | succ budget ih =>
      intro l parts e h
      exact s.isAbsence_walk (fun _ _ _ e he => ih _ _ e he) h
  exact hfollow _ _ _ e h

/-- What prevents an answer is that a name is too long. -/
theorem fault?_eq_some_iff {p : Path} {f : PathFault} :
    s.fault? p = some f ↔ s.lookup p = .error .nameTooLong ∧ f = ⟨.nameTooLong, p⟩ := by
  rw [fault?]
  cases hlookup : s.lookup p with
  | ok l => simp
  | error e =>
    rcases s.isAbsence_lookup hlookup with he | rfl
    · have hne : e ≠ .nameTooLong := by
        rintro rfl
        cases he
      simp [he, hne]
    · simp [OsError.isAbsence, eq_comm]

/-- The question what a path stands for is refused for a reason. -/
theorem refuses_of_candidates {p : Path} {refusal : Refusal} (h : s.candidates p = .error refusal) :
    s.Refuses [p] refusal := by
  rw [candidates] at h
  cases hlookup : s.lookup p with
  | error e =>
    simp only [hlookup] at h
    obtain rfl := Except.error.inj h
    rcases s.isAbsence_lookup hlookup with he | rfl
    · rw [if_pos he]
      refine .missing (List.mem_singleton_self p) (by rw [resolve?, hlookup]; rfl) ?_
      rw [hlookup]
      rintro ⟨⟩
      cases he
    · exact .tooLong (List.mem_singleton_self p) (.inl rfl) hlookup
  | ok l =>
    simp only [hlookup] at h
    split at h
    · cases hfault : (s.listing p).findSome? s.fault? with
      | none => simp [hfault] at h
      | some f =>
        simp only [hfault] at h
        obtain rfl := Except.error.inj h
        obtain ⟨q, hq, hf⟩ := List.exists_of_findSome?_eq_some hfault
        obtain ⟨hlong, rfl⟩ := s.fault?_eq_some_iff.mp hf
        exact .tooLong (List.mem_singleton_self p) (.inr hq) hlong
    · cases h

/-- If something is found at a path, there is no reason to refuse. -/
theorem not_refuses_of_candidates {p : Path} {found : List Path}
    (h : s.candidates p = .ok found) (refusal : Refusal) : ¬ s.Refuses [p] refusal := by
  rw [candidates] at h
  cases hlookup : s.lookup p with
  | error e => simp [hlookup] at h
  | ok l =>
    simp only [hlookup] at h
    have hsome : s.resolve? p = some l := by
      rw [resolve?, hlookup]
      rfl
    rintro (⟨hp, hnone, -⟩ | ⟨hp, hq, hlong⟩)
    · rw [List.mem_singleton.mp hp, hsome] at hnone
      cases hnone
    · rw [List.mem_singleton.mp hp] at hq
      rcases hq with rfl | hq
      · rw [hlookup] at hlong
        cases hlong
      · cases hfolder : s.isFolder l with
        | false => simp [listing, hsome, hfolder] at hq
        | true =>
          rw [if_pos hfolder] at h
          cases hfault : (s.listing p).findSome? s.fault? with
          | none =>
            have hnone := List.findSome?_eq_none_iff.mp hfault _ hq
            rw [s.fault?_eq_some_iff.mpr ⟨hlong, rfl⟩] at hnone
            cases hnone
          | some f => simp [hfault] at h

/-- A reason to refuse one path is a reason to refuse all. -/
theorem Refuses.of_mem {paths : List Path} {p : Path} {refusal : Refusal} (hp : p ∈ paths)
    (h : s.Refuses [p] refusal) : s.Refuses paths refusal := by
  rcases h with ⟨hp', hnone, hshort⟩ | ⟨hp', hq, hlong⟩
  · exact .missing (List.mem_singleton.mp hp' ▸ hp) hnone hshort
  · exact .tooLong (List.mem_singleton.mp hp' ▸ hp) hq hlong

/-- A reason to refuse some paths is one to refuse one of them. -/
theorem Refuses.exists_mem {paths : List Path} {refusal : Refusal} (h : s.Refuses paths refusal) :
    ∃ p ∈ paths, s.Refuses [p] refusal := by
  rcases h with ⟨hp, hnone, hshort⟩ | ⟨hp, hq, hlong⟩
  · exact ⟨_, hp, .missing (List.mem_singleton_self _) hnone hshort⟩
  · exact ⟨_, hp, .tooLong (List.mem_singleton_self _) hq hlong⟩

/-- Discovery is refused for a reason. -/
theorem refuses_of_discoverAfter {seen : List (Option Location)} {paths : List Path}
    {refusal : Refusal} (h : s.discoverAfter seen paths = .error refusal) :
    s.Refuses paths refusal := by
  induction paths generalizing seen with
  | nil => cases h
  | cons p ps ih =>
    rw [discoverAfter] at h
    cases hfound : s.candidates p with
    | error r =>
      simp only [hfound] at h
      obtain rfl := Except.error.inj h
      exact (s.refuses_of_candidates hfound).of_mem s List.mem_cons_self
    | ok found =>
      cases hrest : s.discoverAfter (s.unseen seen found).2 ps with
      | ok rest => simp [hfound, hrest] at h
      | error r =>
        simp only [hfound, hrest] at h
        obtain rfl := Except.error.inj h
        obtain ⟨q, hq, hrefuses⟩ := (ih hrest).exists_mem s
        exact hrefuses.of_mem s (List.mem_cons_of_mem _ hq)

/-- If discovery succeeds, there was no reason to refuse. -/
theorem not_refuses_of_discoverAfter {seen : List (Option Location)} {paths files : List Path}
    (h : s.discoverAfter seen paths = .ok files) (refusal : Refusal) :
    ¬ s.Refuses paths refusal := by
  intro hrefuses
  obtain ⟨p, hp, hone⟩ := hrefuses.exists_mem s
  clear hrefuses
  induction paths generalizing seen files with
  | nil => cases hp
  | cons q ps ih =>
    rw [discoverAfter] at h
    cases hfound : s.candidates q with
    | error r => simp [hfound] at h
    | ok found =>
      cases hrest : s.discoverAfter (s.unseen seen found).2 ps with
      | error r => simp [hfound, hrest] at h
      | ok rest =>
        rcases List.mem_cons.mp hp with rfl | hp
        · exact s.not_refuses_of_candidates hfound refusal hone
        · exact ih hrest hp

/-! ## Files that are named -/

/-- Files that are named and lead to different locations are found as they are named. -/
theorem discoverAfter_eq_of_nodup {seen : List (Option Location)} {paths : List Path}
    (hfiles : ∀ p ∈ paths, s.candidates p = .ok [p]) (hnodup : (paths.map s.resolve?).Nodup)
    (hunseen : ∀ p ∈ paths, s.resolve? p ∉ seen) : s.discoverAfter seen paths = .ok paths := by
  induction paths generalizing seen with
  | nil => rfl
  | cons p ps ih =>
    obtain ⟨hp, hps⟩ := List.forall_mem_cons.mp hfiles
    obtain ⟨hpnew, hpsnew⟩ := List.forall_mem_cons.mp hunseen
    obtain ⟨hother, hnodup⟩ := List.nodup_cons.mp hnodup
    have hone : s.unseen seen [p] = ([p], s.resolve? p :: seen) := by
      simp [unseen, hpnew]
    have hunseen : ∀ q ∈ ps, s.resolve? q ∉ s.resolve? p :: seen := by
      intro q hq hmem
      rcases List.mem_cons.mp hmem with heq | hmem
      · exact hother (heq ▸ List.mem_map_of_mem hq)
      · exact hpsnew q hq hmem
    have hrest := ih hps hnodup hunseen
    simp [discoverAfter, hp, hone, hrest]

/-- A file that is named stands for itself. -/
theorem candidates_of_file {p : Path} {l : Location} (hl : s.resolve? p = some l)
    (hfile : s.isFolder l = false) : s.candidates p = .ok [p] := by
  rw [candidates]
  cases hlookup : s.lookup p with
  | error e =>
    rw [resolve?, hlookup] at hl
    cases hl
  | ok m =>
    rw [resolve?, hlookup] at hl
    obtain rfl := Option.some.inj hl
    simp [hfile]

/-- Discovery leaves files that lead to different locations as they are. -/
theorem discover_of_files {files : List Path} (hnodup : (files.map s.resolve?).Nodup)
    (hfiles : ∀ p ∈ files, ∃ l, s.resolve? p = some l ∧ s.isFolder l = false) :
    s.discover files = .ok files := by
  refine s.discoverAfter_eq_of_nodup (fun p hp => ?_) hnodup (by simp)
  obtain ⟨l, hl, hfolder⟩ := hfiles p hp
  exact s.candidates_of_file hl hfolder

end JavaFormat.Store
