import JsonEmbed.CommandLine.Arguments
import JsonEmbed.Proofs.Places

/-!
# Paths that are given

An option that is a path is never given an empty one. What is given to options grows while the words
are met one after the other; every value gets there by `Given.put`, which refuses an empty path. So
the property holds of what all words together give (`pathsNamed_collect`), and the directory of a
command that words tell is the path of something (`directory_ne_empty_of_parse`).
-/

namespace JsonEmbed

namespace Arguments

namespace Given

/-- No option that is a path has an empty value. -/
def PathsNamed (g : Given) : Prop :=
  ∀ v ∈ g.values, v.1.isPath = true → "" ∉ v.2

theorem pathsNamed_nothing : PathsNamed {} :=
  fun _ hv ↦ absurd hv List.not_mem_nil

variable {g after : Given}

theorem PathsNamed.put (hg : g.PathsNamed) {s : Setting} {vs : List String}
    (h : g.put s vs = .ok after) : after.PathsNamed := by
  rw [Given.put] at h
  split at h
  · exact absurd h (by simp)
  split at h
  · exact absurd h (by simp)
  split at h
  · exact absurd h (by simp)
  next hpath =>
    obtain rfl := Except.ok.inj h
    intro v hv hisPath
    rcases List.mem_append.1 hv with hv | hv
    · exact hg v hv hisPath
    · obtain rfl := List.mem_singleton.1 hv
      exact fun hempty ↦ hpath ⟨hisPath, hempty⟩

theorem PathsNamed.turnOn (hg : g.PathsNamed) {s : Switch} (h : g.turnOn s = .ok after) :
    after.PathsNamed := by
  rw [Given.turnOn] at h
  split at h
  · exact absurd h (by simp)
  · obtain rfl := Except.ok.inj h
    exact hg

/-- The value of a path option is no empty path. -/
theorem PathsNamed.ne_empty (hg : g.PathsNamed) {s : Setting} (hs : s.isPath = true)
    {path : String} (h : g.value? s = some path) : path ≠ "" := by
  obtain ⟨vs, hvs, hhead⟩ := Option.bind_eq_some_iff.1 h
  have hmem : (s, vs) ∈ g.values := by
    obtain ⟨earlier, later, hvalues, -⟩ := List.lookup_eq_some_iff.1 hvs
    rw [hvalues]
    exact List.mem_append_right earlier List.mem_cons_self
  rintro rfl
  exact hg (s, vs) hmem hs (List.mem_of_head? hhead)

end Given

/-! ### Words -/

variable {sub : Subcommand} {g after : Given} {pending next : Pending}

theorem pathsNamed_settle (hg : g.PathsNamed) (h : settle g pending = .ok after) :
    after.PathsNamed := by
  rcases pending with - | ⟨s, vs⟩
  · obtain rfl := Except.ok.inj h
    exact hg
  · exact hg.put h

theorem pathsNamed_meet (hg : g.PathsNamed) {a : Argument} {attached : Option String}
    (h : meet g pending a attached = .ok (after, next)) : after.PathsNamed := by
  rcases a with s | s | - <;> rcases attached with - | v
  case setting.none =>
    obtain ⟨settled, hsettle, hdone⟩ := exists_of_bind_eq_ok h
    obtain rfl : settled = after := congrArg Prod.fst (Except.ok.inj hdone)
    exact pathsNamed_settle hg hsettle
  case setting.some =>
    obtain ⟨settled, hsettle, hrest⟩ := exists_of_bind_eq_ok h
    obtain ⟨given, hput, hdone⟩ := exists_of_bind_eq_ok hrest
    obtain rfl : given = after := congrArg Prod.fst (Except.ok.inj hdone)
    exact (pathsNamed_settle hg hsettle).put hput
  case switch.none =>
    obtain ⟨settled, hsettle, hrest⟩ := exists_of_bind_eq_ok h
    obtain ⟨given, hturn, hdone⟩ := exists_of_bind_eq_ok hrest
    obtain rfl : given = after := congrArg Prod.fst (Except.ok.inj hdone)
    exact (pathsNamed_settle hg hsettle).turnOn hturn
  case help.none =>
    obtain ⟨settled, -, hrest⟩ := exists_of_bind_eq_ok h
    exact absurd hrest (by simp)
  all_goals exact absurd h (by simp [meet])

theorem pathsNamed_meetShort (hg : g.PathsNamed) {letters : List Char}
    (h : meetShort sub g pending letters = .ok (after, next)) : after.PathsNamed := by
  induction letters generalizing g pending with
  | nil =>
    obtain rfl : g = after := congrArg Prod.fst (Except.ok.inj h)
    exact hg
  | cons c cs ih =>
    rw [meetShort] at h
    split at h
    · exact absurd h (by simp)
    · exact pathsNamed_meet hg h
    · obtain ⟨⟨between, nextBetween⟩, hmeet, hrest⟩ := exists_of_bind_eq_ok h
      exact ih (pathsNamed_meet hg hmeet) hrest
    · exact pathsNamed_meet hg h

theorem pathsNamed_meetPlain (hg : g.PathsNamed) {text : String}
    (h : meetPlain g text pending = .ok (after, next)) : after.PathsNamed := by
  rcases pending with - | ⟨s, vs⟩
  · exact absurd h (by simp [meetPlain])
  · rw [meetPlain] at h
    split at h
    · obtain rfl : g = after := congrArg Prod.fst (Except.ok.inj h)
      exact hg
    · exact absurd h (by simp)

/-- **No words give an option an empty path.** -/
theorem pathsNamed_collect (hg : g.PathsNamed) {ws : List String}
    (h : collect sub g pending ws = .ok after) : after.PathsNamed := by
  induction ws generalizing g pending with
  | nil => exact pathsNamed_settle hg h
  | cons w ws ih =>
    rw [collect] at h
    split at h
    · split at h
      · exact pathsNamed_settle hg h
      · exact absurd h (by simp)
    · split at h
      · exact absurd h (by simp)
      · obtain ⟨⟨between, nextBetween⟩, hmeet, hrest⟩ := exists_of_bind_eq_ok h
        exact ih (pathsNamed_meet hg hmeet) hrest
    · obtain ⟨⟨between, nextBetween⟩, hmeet, hrest⟩ := exists_of_bind_eq_ok h
      exact ih (pathsNamed_meetShort hg hmeet) hrest
    · obtain ⟨⟨between, nextBetween⟩, hmeet, hrest⟩ := exists_of_bind_eq_ok h
      exact ih (pathsNamed_meetPlain hg hmeet) hrest

/-- The directory of a command that words tell is no empty path. -/
theorem directory_ne_empty_of_parse {ws : List String} {s : Settings} {format directory : String}
    (h : parse ws = .ok ⟨s, .programs format (some directory)⟩) : directory ≠ "" := by
  have hcommand : ∀ sub ws, commandOf sub ws = .ok ⟨s, .programs format (some directory)⟩ →
      directory ≠ "" := by
    intro sub ws h
    obtain ⟨g, hcollect, hcommand⟩ := exists_of_bind_eq_ok h
    have hg := pathsNamed_collect Given.pathsNamed_nothing hcollect
    rw [Given.command.eq_def] at hcommand
    split at hcommand
    · exact absurd hcommand (by simp)
    · cases sub with
      | declarations => exact absurd hcommand (by simp)
      | programs =>
        simp only [Except.ok.injEq, Command.mk.injEq, Task.programs.injEq] at hcommand
        exact hg.ne_empty rfl hcommand.2.2
  rcases ws with - | ⟨w, ws⟩
  · exact absurd h (by simp [parse])
  rw [parse] at h
  split at h
  case h_4 | h_5 => exact hcommand _ _ h
  all_goals exact absurd h (by simp)

end Arguments

end JsonEmbed
