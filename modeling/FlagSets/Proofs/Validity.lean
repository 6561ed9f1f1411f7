import FlagSets.Proofs.Refusals
import FlagSets.Proofs.Values
import FlagSets.Settings
import FlagSets.VarSet.Backend

/-!
# Valid settings

A setting is checked when it is given, and never again: what is inherited from a parent or from the
settings in force is taken as it is. Settings are therefore valid if the ones they inherit from are.

They are refused exactly if there is something wrong with what is asked for: the parent, a name, or
a value. The order of the checks decides which of several reasons is reported, and nothing else.

## Main results

* `Setting.validate_of_accepts`, `Setting.validate_of_not_accepts` : what each setting accepts.
* `Settings.build_valid` : settings that inherit from valid ones are valid.
* `Settings.exists_build`, `Settings.build_refused` : settings are made unless something is wrong.
* `Settings.Valid.exists_backing` : valid settings name a backing.
-/

namespace FlagSets

open Outcome

/-! ## What a setting accepts -/

namespace Setting

variable {s : Setting} {d : Datum}

/-- The data that are values of a setting. Booleans count as integers, and numbers that equal a
boolean or a level count as it. -/
def Accepts : Setting → Datum → Prop
  | maxExamples, d => ∃ n, d.integer? = some n ∧ 1 ≤ n
  | maxShrinks, d => ∃ n, d.integer? = some n ∧ 0 ≤ n
  | derandomize, d => d.equal (.bool true) = true ∨ d.equal (.bool false) = true
  | verbosity, d => ∃ v : Verbosity, d.equal (.num (.level v)) = true
  | bitsetBackend, d => d = .text "bool_vec" ∨ d = .text "bitarray"

theorem mem_all (s : Setting) : s ∈ all := by cases s <;> simp [all]

/-- A name is that of a setting, or of none. -/
theorem ofName?_eq_none_iff {name : String} :
    ofName? name = none ↔ ∀ s : Setting, s.name ≠ name := by
  rw [ofName?, List.find?_eq_none]
  constructor
  · intro h s hs
    exact h s s.mem_all (beq_iff_eq.mpr hs)
  · intro h s _ hs
    exact h s (beq_iff_eq.mp hs)

/-- An integer that is large enough passes. -/
private theorem requireAtLeast_of_le {least n : Int} (hd : d.integer? = some n) (hn : least ≤ n)
    (name : String) (why : Refusal) : requireAtLeast least d name why = .ok d := by
  have htype : requireType .integer d name = .ok () := by
    cases d <;> first | rfl | cases hd
  simp only [requireAtLeast, htype, hd, if_neg (Int.not_lt.mpr hn), bind, Except.bind]
  rfl

/-- What is no integer, or too small a one, is refused. -/
private theorem requireAtLeast_refused {least : Int}
    (h : ¬ ∃ n, d.integer? = some n ∧ least ≤ n) (name : String) {why : Refusal}
    (hwhy : why.quoted = [d]) : (requireAtLeast least d name why).IsRefused d.isLegible := by
  cases hd : d.integer? with
  | none =>
      have htype : requireType .integer d name = refuse (.wrongType [.integer] name d) := by
        cases d <;> first | rfl | cases hd
      unfold requireAtLeast
      rw [htype]
      exact (IsRefused.refuse _ (by simp [Refusal.quoted])).bind _
  | some n =>
      have htype : requireType .integer d name = .ok () := by
        cases d <;> first | rfl | cases hd
      have hn : n < least := Int.not_le.mp fun hle => h ⟨n, hd, hle⟩
      simp only [requireAtLeast, htype, hd, if_pos hn, bind, Except.bind]
      exact .refuse why (by simp [hwhy])

/-- Only a text equals a text. -/
private theorem equal_text {t : String} : d.equal (.text t) = true ↔ d = .text t := by
  cases d <;> simp [Datum.equal, Datum.equal.equalNumber, Datum.number?]

/-- The settings without options are the ones that are integers. -/
private theorem eq_of_options_eq_nil (hs : s.options = []) : s = maxExamples ∨ s = maxShrinks := by
  cases s with
  | maxExamples => exact .inl rfl
  | maxShrinks => exact .inr rfl
  | _ => cases hs

/-- Where there are options, exactly what equals one of them is accepted. -/
private theorem options_any_iff (hs : s.options ≠ []) :
    s.options.any d.equal = true ↔ s.Accepts d := by
  cases s with
  | maxExamples => exact absurd rfl hs
  | maxShrinks => exact absurd rfl hs
  | derandomize => simp [options, Accepts]
  | verbosity =>
      simp only [options, Accepts, List.any_map, List.any_eq_true]
      exact ⟨fun ⟨v, _, hv⟩ => ⟨v, hv⟩, fun ⟨v, hv⟩ => ⟨v, v.mem_all, hv⟩⟩
  | bitsetBackend => simp [options, Accepts, equal_text]

private theorem validate_of_options (hs : s.options ≠ []) :
    s.validate d = if s.options.any d.equal then .ok d
      else refuse (.notOption s.name d (.tuple s.options)) := by
  cases s with
  | maxExamples => exact absurd rfl hs
  | maxShrinks => exact absurd rfl hs
  | _ => rfl

/-- An accepted value passes as it is. -/
theorem validate_of_accepts (h : s.Accepts d) : s.validate d = .ok d := by
  by_cases hs : s.options = []
  · rcases eq_of_options_eq_nil hs with rfl | rfl
    · obtain ⟨n, hd, hn⟩ := h
      exact requireAtLeast_of_le hd hn _ _
    · obtain ⟨n, hd, hn⟩ := h
      exact requireAtLeast_of_le hd hn _ _
  · rw [validate_of_options hs, if_pos ((options_any_iff hs).mpr h)]

/-- Options are few, and short. -/
private theorem isLegible_options (s : Setting) : (Datum.tuple s.options).isLegible = true := by
  cases s <;> rfl

/-- Everything else is refused. -/
theorem validate_of_not_accepts (h : ¬ s.Accepts d) : (s.validate d).IsRefused d.isLegible := by
  by_cases hs : s.options = []
  · rcases eq_of_options_eq_nil hs with rfl | rfl
    · exact requireAtLeast_refused h _ rfl
    · exact requireAtLeast_refused h _ rfl
  · rw [validate_of_options hs, if_neg fun hany => h ((options_any_iff hs).mp hany)]
    exact .refuse _ (by simp [Refusal.quoted, isLegible_options])

/-- A number of examples that is too small, and too long to be written out, is not refused: there is
no way to quote it. -/
theorem validate_maxExamples_of_long {n : Int} (hn : n < 1) (hlong : Text.isShort n = false) :
    maxExamples.validate (.int n) = .error .tooLong := by
  have hmute : (Refusal.tooFewExamples (.int n)).quoted.all Datum.isLegible = false := by
    rw [Refusal.quoted, List.all_cons, Datum.isLegible_int, hlong, Bool.false_and]
  have hvalidate : maxExamples.validate (.int n) =
      if n < 1 then refuse (.tooFewExamples (.int n)) else .ok (.int n) := rfl
  rw [hvalidate, if_pos hn, refuse_eq_tooLong hmute]

/-- A setting's own default is a value of it. -/
theorem accepts_default (s : Setting) : s.Accepts s.default := by
  cases s with
  | maxExamples => exact ⟨100, rfl, by decide⟩
  | maxShrinks => exact ⟨500, rfl, by decide⟩
  | derandomize => exact .inr rfl
  | verbosity => exact ⟨.normal, by simp [default]⟩
  | bitsetBackend => exact .inl rfl

end Setting

/-! ## Settings made one by one -/

namespace Config

variable {α : Type} {value : Setting → Outcome α}

theorem ofEach_eq_ok_iff {c : Config α} :
    ofEach value = .ok c ↔ ∀ s, value s = .ok (c.get s) := by
  simp only [ofEach, Outcome.bind_eq_ok_iff]
  constructor
  · rintro ⟨examples, h₁, shrinks, h₂, derandomize, h₃, verbosity, h₄, backend, h₅, hc⟩ s
    obtain rfl := Except.ok.inj hc
    cases s <;> assumption
  · intro h
    exact ⟨_, h .maxExamples, _, h .maxShrinks, _, h .derandomize, _, h .verbosity, _,
      h .bitsetBackend, rfl⟩

/-- Where every value is there, so are all of them. -/
theorem exists_ofEach (h : ∀ s, ∃ a, value s = .ok a) : ∃ c, ofEach value = .ok c := by
  choose a ha using h
  refine ⟨⟨a .maxExamples, a .maxShrinks, a .derandomize, a .verbosity, a .bitsetBackend⟩, ?_⟩
  refine ofEach_eq_ok_iff.mpr fun s => ?_
  rw [ha s]
  cases s <;> rfl

/-- Where some value is refused and every other one is there or refused too, so are all of them. -/
theorem ofEach_refused {p : Prop} (hvalue : ∀ s, (∃ a, value s = .ok a) ∨ (value s).IsRefused p)
    {s : Setting} (h : (value s).IsRefused p) : (ofEach value).IsRefused p := by
  -- the values are computed one after another, and the first refusal is the outcome
  have hbind {β : Type} (t : Setting) (next : α → Outcome β)
      (hnext : t ≠ s → ∀ a, (next a).IsRefused p) : (value t >>= next).IsRefused p := by
    by_cases ht : t = s
    · subst ht
      exact h.bind next
    · rcases hvalue t with ⟨a, ha⟩ | hrefused
      · rw [ha]
        exact hnext ht a
      · exact hrefused.bind next
  refine hbind _ _ fun h₁ _ => hbind _ _ fun h₂ _ => hbind _ _ fun h₃ _ => hbind _ _ fun h₄ _ =>
    hbind _ _ fun h₅ _ => ?_
  cases s <;> contradiction

end Config

/-! ## Settings that are made -/

namespace Settings

variable {given : List (String × Datum)} {parent : Datum} {inForce : Settings}

/-- Every setting has a value that it accepts. -/
def Valid (c : Settings) : Prop := ∀ s : Setting, s.Accepts (c.get s)

theorem valid_plain : Valid plain := fun s => by
  cases s <;> exact Setting.accepts_default _

/-- What can be wrong with settings that are asked for: the parent is none, a name is that of no
setting, or a value is not one of its setting. -/
inductive Flawed (given : List (String × Datum)) (parent : Datum) : Prop
  | parent (habsent : parent ≠ .absent) (hother : ∀ p, parent ≠ .settings p)
  | unknown (name : String) (d : Datum) (hmem : (name, d) ∈ given)
    (hname : ∀ s : Setting, s.name ≠ name)
  | invalid (s : Setting) (d : Datum) (hgiven : given.lookup s.name = some d) (hset : d ≠ .unset)
    (hd : ¬ s.Accepts d)

/-- The data that may be quoted where settings are refused: those given, and a parent that is
none. -/
def questioned (given : List (String × Datum)) (parent : Datum) : List Datum :=
  match parent with
  | .settings _ => given.map Prod.snd
  | d => d :: given.map Prod.snd

/-- What is given may be quoted. -/
private theorem mem_questioned {name : String} {d : Datum} (h : given.lookup name = some d) :
    d ∈ questioned given parent := by
  obtain ⟨before, after, rfl, -⟩ := List.lookup_eq_some_iff.mp h
  have hmem : d ∈ (before ++ (name, d) :: after).map Prod.snd := by simp
  unfold questioned
  split
  · exact hmem
  · exact List.mem_cons_of_mem _ hmem

/-- A setting is inherited, or its value is given. -/
private theorem resolve_cases (given : List (String × Datum)) (parent : Datum) (inForce : Settings)
    (s : Setting) :
    (∃ c, (parent = .settings c ∨ c = inForce) ∧
        resolve given parent (.settings inForce) s = .ok (c.get s)) ∨
      ∃ d, given.lookup s.name = some d ∧ d ≠ .unset ∧
        resolve given parent (.settings inForce) s = s.validate d := by
  have hinherited : ∃ c, (parent = .settings c ∨ c = inForce) ∧
      inherited parent (.settings inForce) s = .ok (c.get s) := by
    cases parent with
    | settings p => exact ⟨p, .inl rfl, rfl⟩
    | _ => exact ⟨inForce, .inr rfl, rfl⟩
  cases hgiven : given.lookup s.name with
  | none =>
      simp only [resolve, hgiven]
      exact .inl hinherited
  | some d =>
      simp only [resolve, hgiven]
      cases d with
      | unset => exact .inl hinherited
      | _ => exact .inr ⟨_, rfl, nofun, rfl⟩

/-- A setting is there, or it is refused. -/
private theorem resolve_ok_or_refused (s : Setting) :
    (∃ d, resolve given parent (.settings inForce) s = .ok d) ∨
      (resolve given parent (.settings inForce) s).IsRefused
        (∀ d ∈ questioned given parent, d.isLegible) := by
  rcases resolve_cases given parent inForce s with ⟨c, -, hc⟩ | ⟨d, hgiven, -, hd⟩
  · exact .inl ⟨_, hc⟩
  · by_cases haccepts : s.Accepts d
    · exact .inl ⟨d, hd.trans (Setting.validate_of_accepts haccepts)⟩
    · rw [hd]
      exact .inr ((Setting.validate_of_not_accepts haccepts).mono
        fun h => h d (mem_questioned hgiven))

/-- A parent is settings, or there is none. -/
private theorem parent_cases (parent : Datum) :
    (parent = .absent ∨ ∃ p, parent = .settings p) ∨
      parent ≠ .absent ∧ ∀ p, parent ≠ .settings p := by
  cases parent with
  | absent => exact .inl (.inl rfl)
  | settings p => exact .inl (.inr ⟨p, rfl⟩)
  | _ => exact .inr ⟨nofun, nofun⟩

/-- With a proper parent, settings are refused for the first name of no setting, and otherwise made
one by one. -/
theorem build_of_parent (hparent : parent = .absent ∨ ∃ p, parent = .settings p)
    (d : Datum) :
    build given parent d =
      match given.find? fun e => (Setting.ofName? e.1).isNone with
      | some e => refuse (.unknownSetting e.1)
      | none => Config.ofEach (resolve given parent d) := by
  rcases hparent with rfl | ⟨p, rfl⟩ <;>
  · simp only [build, bind, Except.bind]
    cases given.find? _ <;> rfl

theorem find_unknown_eq_none_iff :
    given.find? (fun e => (Setting.ofName? e.1).isNone) = none ↔
      ∀ e ∈ given, ∃ s : Setting, s.name = e.1 := by
  simp [List.find?_eq_none, Option.isNone_iff_eq_none, Setting.ofName?_eq_none_iff]

/-- Settings that are made are made one by one. -/
private theorem resolve_of_build {c : Settings} {d : Datum} (h : build given parent d = .ok c)
    (s : Setting) : resolve given parent d s = .ok (c.get s) := by
  rcases parent_cases parent with hparent | ⟨habsent, hother⟩
  · rw [build_of_parent hparent] at h
    split at h
    · cases h
    · exact Config.ofEach_eq_ok_iff.mp h s
  · exfalso
    cases parent <;> first | cases h | exact habsent rfl | exact hother _ rfl

/-- Settings that inherit from valid ones are valid. -/
theorem build_valid {c : Settings} (h : build given parent (.settings inForce) = .ok c)
    (hparent : ∀ p, parent = .settings p → Valid p) (hinForce : Valid inForce) : Valid c := by
  intro s
  have hs := resolve_of_build h s
  rcases resolve_cases given parent inForce s with ⟨q, hq, hvalue⟩ | ⟨d, -, -, hvalue⟩
  · have hget : c.get s = q.get s := Except.ok.inj (hs.symm.trans hvalue)
    rw [hget]
    rcases hq with hq | rfl
    · exact hparent q hq s
    · exact hinForce s
  · have hvalid : s.validate d = .ok (c.get s) := hvalue.symm.trans hs
    by_cases haccepts : s.Accepts d
    · have hget : d = c.get s :=
        Except.ok.inj ((Setting.validate_of_accepts haccepts).symm.trans hvalid)
      exact hget ▸ haccepts
    · exact absurd hvalid ((Setting.validate_of_not_accepts haccepts).ne_ok _)

/-- Settings are refused where something is wrong with what is asked for. -/
theorem build_refused (h : Flawed given parent) :
    (build given parent (.settings inForce)).IsRefused
      (∀ d ∈ questioned given parent, d.isLegible) := by
  rcases parent_cases parent with hparent | ⟨habsent, hother⟩
  · rw [build_of_parent hparent]
    split
    · exact .refuse _ fun _ => rfl
    · rename_i hnames
      cases h with
      | parent habsent hother =>
          rcases hparent with hnone | ⟨p, hp⟩
          · exact absurd hnone habsent
          · exact absurd hp (hother p)
      | unknown name d hmem hname =>
          obtain ⟨s, hs⟩ := find_unknown_eq_none_iff.mp hnames _ hmem
          exact absurd hs (hname s)
      | invalid s d hgiven hset hd =>
          refine Config.ofEach_refused resolve_ok_or_refused (s := s) ?_
          simp only [resolve, hgiven]
          exact (Setting.validate_of_not_accepts hd).mono fun h => h d (mem_questioned hgiven)
  · have hbuild : build given parent (.settings inForce) = refuse (.notParent parent) := by
      cases parent with
      | absent => exact absurd rfl habsent
      | settings p => exact absurd rfl (hother p)
      | _ => rfl
    have hmem : parent ∈ questioned given parent := by
      unfold questioned
      split
      · exact absurd rfl (hother _)
      · exact List.mem_cons_self
    rw [hbuild]
    exact .refuse _ fun h => by simp [Refusal.quoted, h parent hmem]

/-- Settings are made where nothing is wrong with what is asked for. -/
theorem exists_build (h : ¬ Flawed given parent) :
    ∃ c, build given parent (.settings inForce) = .ok c := by
  have hparent : parent = .absent ∨ ∃ p, parent = .settings p :=
    (parent_cases parent).resolve_right fun hbad => h (.parent hbad.1 hbad.2)
  have hnames : ∀ e ∈ given, ∃ s : Setting, s.name = e.1 := by
    intro e he
    by_contra hnone
    exact h (.unknown e.1 e.2 he fun s hs => hnone ⟨s, hs⟩)
  have hvalues : ∀ s, ∃ d, resolve given parent (.settings inForce) s = .ok d := by
    intro s
    rcases resolve_cases given parent inForce s with ⟨c, -, hc⟩ | ⟨d, hgiven, hset, hd⟩
    · exact ⟨_, hc⟩
    · have haccepts : s.Accepts d := by
        by_contra hbad
        exact h (.invalid s d hgiven hset hbad)
      exact ⟨d, hd.trans (Setting.validate_of_accepts haccepts)⟩
  rw [build_of_parent hparent, find_unknown_eq_none_iff.mpr hnames]
  exact Config.exists_ofEach hvalues

/-- Valid settings name one of the two backings. -/
theorem Valid.exists_backing {c : Settings} (h : c.Valid) :
    ∃ b, Backing.resolve (.settings c) .absent = .ok b ∧ (b = .boolVec ∨ b = .bitArray) := by
  rcases h .bitsetBackend with hbackend | hbackend
  · have hnamed : c.bitsetBackend = .text "bool_vec" := hbackend
    refine ⟨.boolVec, ?_, .inl rfl⟩
    simp [Backing.resolve, hnamed, bind, Except.bind, pure, Except.pure]
  · have hnamed : c.bitsetBackend = .text "bitarray" := hbackend
    refine ⟨.bitArray, ?_, .inr rfl⟩
    simp [Backing.resolve, hnamed, bind, Except.bind, pure, Except.pure]

end Settings

end FlagSets
