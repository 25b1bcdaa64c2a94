import Screening.Config.Location

namespace Screening

namespace Path

theorem exists_below (path child : Text) : ∃ front, below path child = front ++ child ∧
    (front = [] ∨ front.getLast? = some 47 ∧ child.head? ≠ some 47) := by
  have hrelative : (∀ tail, child = 47 :: tail → False) → child.head? ≠ some 47 := by
    intro h hhead
    obtain ⟨tail, htail⟩ := List.head?_eq_some_iff.mp hhead
    exact h tail htail
  unfold below
  split
  next => exact ⟨[], rfl, .inl rfl⟩
  next => exact ⟨[], rfl, .inl rfl⟩
  next hnot hlast => exact ⟨path, rfl, .inr ⟨hlast, hrelative hnot⟩⟩
  next hnot _ => exact ⟨path ++ [47], by simp, .inr ⟨by simp, hrelative hnot⟩⟩

end Path

namespace Environment

variable {environment : Environment} {requested given path home rest : Text} {b : UInt8}

/-- A tilde that is not the user's own stands in front of another byte than a slash, or in front of the
slash of an absolute path. -/
def HasForeignTilde (path : Text) : Prop :=
  ∃ b rest, path = 126 :: b :: rest ∧ (b ≠ 47 ∨ rest.head? = some 47)

/-- What a path is if only the user's own tilde is resolved. -/
def resolveOwn (environment : Environment) (path : Text) : Text :=
  match path, environment.home with
  | [126], some home => home
  | 126 :: 47 :: rest, some home => if rest.head? = some 47 then path else Path.below home rest
  | _, _ => path

theorem resolveTilde_of_tilde (hhome : environment.home = some home) :
    environment.resolveTilde (126 :: b :: rest) = Path.below home rest := by
  simp [resolveTilde, hhome]

/-- A path with a foreign tilde is never resolved to itself, whatever the home. -/
theorem below_ne_of_foreign (h : b ≠ 47 ∨ rest.head? = some 47) :
    Path.below home rest ≠ 126 :: b :: rest := by
  intro heq
  obtain ⟨front, hfront, hslash⟩ := Path.exists_below home rest
  obtain rfl : front = [126, b] := List.append_cancel_right (hfront.symm.trans heq)
  rcases hslash with hnil | ⟨hlast, hrelative⟩
  · exact List.cons_ne_nil _ _ hnil
  · exact h.elim (fun hne => hne (Option.some.inj hlast)) hrelative

theorem resolveOwn_of_foreign (h : b ≠ 47 ∨ rest.head? = some 47) :
    environment.resolveOwn (126 :: b :: rest) = 126 :: b :: rest := by
  unfold resolveOwn
  split
  next heq _ => simp at heq
  next heq _ =>
    obtain ⟨rfl, rfl⟩ : b = 47 ∧ rest = _ := by simpa using heq
    exact if_pos (h.resolve_left fun hne => hne rfl)
  next => rfl

theorem resolveTilde_eq_resolveOwn (h : environment.home = none ∨ ¬ HasForeignTilde path) :
    environment.resolveTilde path = environment.resolveOwn path := by
  unfold resolveTilde resolveOwn
  split
  next home hhome =>
    rw [hhome]
    rfl
  next b rest home hhome =>
    rw [hhome] at h ⊢
    obtain ⟨hb, hrest⟩ : b = 47 ∧ rest.head? ≠ some 47 := by
      have hown := h.resolve_left (Option.some_ne_none home)
      simpa [HasForeignTilde] using hown
    rw [hb]
    exact (if_neg hrest).symm
  next hlone htilde =>
    split
    next hhome => exact absurd hhome (hlone _ rfl)
    next hhome => exact absurd hhome (htilde _ _ _ rfl)
    next => rfl

/-- A path that the user gives, or the environment where the user gives none, is resolved as it should
be if there is no home or its tilde is the user's own. -/
theorem settingsPath_resolves_own_tilde (hne : given ≠ [])
    (hgiven : requested = given ∨ requested = [] ∧ environment.configFile = some given) :
    (environment.settingsPath requested = environment.resolveOwn given ↔
      environment.home = none ∨ ¬ HasForeignTilde given) ∧
      ∀ home b rest, environment.home = some home → given = 126 :: b :: rest →
        environment.settingsPath requested = Path.below home rest := by
  have hpath : environment.settingsPath requested = environment.resolveTilde given := by
    have hgiven' : nonEmpty (some given) = some given := by simp [nonEmpty, hne]
    rcases hgiven with rfl | ⟨rfl, hfile⟩
    · rw [settingsPath, hgiven']
      rfl
    · rw [settingsPath, hfile, hgiven']
      rfl
  rw [hpath]
  refine ⟨⟨fun heq => ?_, resolveTilde_eq_resolveOwn⟩, ?_⟩
  · cases hhome : environment.home with
    | none => exact .inl rfl
    | some home =>
      refine .inr ?_
      rintro ⟨b, rest, rfl, hforeign⟩
      rw [resolveTilde_of_tilde hhome, resolveOwn_of_foreign hforeign] at heq
      exact below_ne_of_foreign hforeign heq
  · rintro home b rest hhome rfl
    exact resolveTilde_of_tilde hhome

theorem settingsPath_resolves_own_tilde_of_file :
    let environment : Environment :=
      ⟨some (Text.of "/home/u/"), some (Text.of "~/a/b~c.toml"), some (Text.of "/etc")⟩
    let given := Text.of "~/a/b~c.toml"
    (given ≠ [] ∧ environment.configFile = some given) ∧ ¬ HasForeignTilde given ∧
      environment.settingsPath [] = environment.resolveOwn given ∧
      environment.settingsPath [] = Text.of "/home/u/a/b~c.toml" := by
  intro environment given
  have hne : given ≠ [] := by decide +kernel
  have hown : ¬ HasForeignTilde given := by
    have hgiven : given = 126 :: 47 :: Text.of "a/b~c.toml" := by decide +kernel
    rintro ⟨b, rest, heq, hforeign⟩
    obtain ⟨rfl, rfl⟩ : 47 = b ∧ Text.of "a/b~c.toml" = rest := by
      simpa [hgiven] using heq
    revert hforeign
    decide +kernel
  exact ⟨⟨hne, rfl⟩, hown,
    (settingsPath_resolves_own_tilde hne (.inr ⟨rfl, rfl⟩)).1.mpr (.inr hown), by decide +kernel⟩

/-- The home of another user is looked for below the user's own. -/
theorem foreign_tilde_resolved :
    let environment : Environment := ⟨some (Text.of "/home/u"), none, none⟩
    let given := Text.of "~bob/x"
    given ≠ [] ∧ environment.resolveOwn given = given ∧
      environment.settingsPath given = Text.of "/home/u/ob/x" ∧ Text.of "/home/u/ob/x" ≠ given := by
  decide +kernel

end Environment

end Screening
