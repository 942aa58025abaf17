import Wildcard.Config.Settings
import Wildcard.Proofs.Assignments

/-!
# Where settings come from

The tokens, the mode and the dialect are each read from the first text that can be read: what the
document assigns, then what the environment holds, then the default. A text that cannot be read is
reported and has no other effect, and no setting depends on what is written for another one.
-/

namespace Wildcard

namespace Environment

/-- The text for a variable of the tool, named without its prefix: the one under the capital prefix
unless that is not set or empty, and then the one under the small prefix. -/
inductive Says (env : Environment) (name : Bytes) : Option Bytes → Prop
  | inCapitals {text : Bytes} : env (capitals ++ name) = some text → text ≠ [] →
      Says env name (some text)
  | inSmalls {text : Bytes} : env (capitals ++ name) = none ∨ env (capitals ++ name) = some [] →
      env (smalls ++ name) = some text → text ≠ [] → Says env name (some text)
  | nowhere : env (capitals ++ name) = none ∨ env (capitals ++ name) = some [] →
      env (smalls ++ name) = none ∨ env (smalls ++ name) = some [] → Says env name none

variable {env : Environment} {name text : Bytes} {found : Option Bytes}

theorem nonEmpty_of_ne_nil (henv : env name = some text) (htext : text ≠ []) :
    env.nonEmpty name = some text := by
  simp [nonEmpty, henv, htext]

theorem nonEmpty_of_unset (henv : env name = none ∨ env name = some []) :
    env.nonEmpty name = none := by
  rcases henv with henv | henv <;> simp [nonEmpty, henv]

theorem set_or_unset (env : Environment) (name : Bytes) :
    (∃ text, env name = some text ∧ text ≠ []) ∨ env name = none ∨ env name = some [] := by
  rcases env name with - | (- | ⟨b, rest⟩) <;> simp

theorem lookup_capitals (env : Environment) (name : Bytes) :
    env.lookup (capitals ++ name) =
      (env.nonEmpty (capitals ++ name)).or (env.nonEmpty (smalls ++ name)) := by
  have hother : otherName (capitals ++ name) = some (smalls ++ name) := by simp [otherName]
  rw [lookup, hother, Option.bind_some]

theorem Says.eq_lookup (h : env.Says name found) : found = env.lookup (capitals ++ name) := by
  rw [lookup_capitals]
  cases h with
  | inCapitals henv htext => rw [nonEmpty_of_ne_nil henv htext, Option.some_or]
  | inSmalls hcapitals henv htext =>
    rw [nonEmpty_of_unset hcapitals, nonEmpty_of_ne_nil henv htext, Option.none_or]
  | nowhere hcapitals hsmalls =>
    rw [nonEmpty_of_unset hcapitals, nonEmpty_of_unset hsmalls, Option.none_or]

theorem says_lookup (env : Environment) (name : Bytes) :
    env.Says name (env.lookup (capitals ++ name)) := by
  rw [lookup_capitals]
  rcases set_or_unset env (capitals ++ name) with ⟨text, henv, htext⟩ | hcapitals
  · rw [nonEmpty_of_ne_nil henv htext, Option.some_or]
    exact .inCapitals henv htext
  · rw [nonEmpty_of_unset hcapitals, Option.none_or]
    rcases set_or_unset env (smalls ++ name) with ⟨text, henv, htext⟩ | hsmalls
    · rw [nonEmpty_of_ne_nil henv htext]
      exact .inSmalls hcapitals henv htext
    · rw [nonEmpty_of_unset hsmalls]
      exact .nowhere hcapitals hsmalls

end Environment

namespace Config

namespace Document

def given (present : Bool) (text : Bytes) : Option Document :=
  if present then some (ofText text) else none

theorem get?_given_iff {present : Bool} {text heading key value : Bytes} :
    (given present text).bind (·.get? heading key) = some value ↔
      present = true ∧ LastAssigns ((Bytes.lines text).map Line.ofText) heading key value := by
  cases present with
  | false => simp [given]
  | true =>
    rw [given, if_pos rfl, Option.bind_some, ofText]
    rcases get?_ofLines_cases ((Bytes.lines text).map Line.ofText) heading key with
      ⟨found, hget, hlast⟩ | ⟨hget, hnone⟩
    · rw [hget, Option.some.injEq]
      constructor
      · rintro rfl
        exact ⟨rfl, hlast⟩
      · rintro ⟨-, hlast'⟩
        exact hlast'.value_eq hlast
    · rw [hget]
      refine iff_of_false (by simp) ?_
      rintro ⟨-, i, hassigns, -⟩
      exact hnone i value hassigns

end Document

/-- The line on standard error about a text that cannot be read, which is shown up to its first NUL. -/
def Source.complaint : Source → Bytes → Bytes
  | .entry heading key, text =>
    Bytes.ascii "wildrex: Config: invalid [" ++ heading ++ Bytes.ascii "] " ++ key ++
      Bytes.ascii " = \"" ++ text.takeWhile (· != 0) ++ Bytes.ascii "\", ignored\n"
  | .envName name, text =>
    Bytes.ascii "wildrex: Config: invalid " ++ name ++ Bytes.ascii "=\"" ++
      text.takeWhile (· != 0) ++ Bytes.ascii "\", ignored\n"

namespace Field

variable {α : Type} {f : Field α}

/-- The texts for a setting in the order in which they are read: what the document assigns to its
key, and what its variable exports. -/
def texts (f : Field α) (assigned exported : Option Bytes) : List (Source × Bytes) :=
  (assigned.map (Source.entry f.heading f.key, ·)).toList ++
    (exported.map (Source.envName f.envName, ·)).toList

/-- The value is read from the first text that can be read, and is the default if none can; there is
one notice for each text before. -/
inductive Settles (f : Field α) : List (Source × Bytes) → α → List Notice → Prop
  | read {rejected others : List (Source × Bytes)} {source : Source} {text : Bytes} {value : α} :
      (∀ c ∈ rejected, f.read c.2 = none) → f.read text = some value →
      Settles f (rejected ++ (source, text) :: others) value
        (rejected.map fun c => .ignored c.1 c.2)
  | fallback {rejected : List (Source × Bytes)} : (∀ c ∈ rejected, f.read c.2 = none) →
      Settles f rejected f.fallback (rejected.map fun c => .ignored c.1 c.2)

theorem Settles.cons {source : Source} {text : Bytes} {later : List (Source × Bytes)} {value : α}
    {notices : List Notice} (htext : f.read text = none) (h : f.Settles later value notices) :
    f.Settles ((source, text) :: later) value (.ignored source text :: notices) := by
  cases h with
  | @read rejected others source' text' value hrejected hread =>
    rw [← List.cons_append]
    exact .read (List.forall_mem_cons.mpr ⟨htext, hrejected⟩) hread
  | fallback hrejected => exact .fallback (List.forall_mem_cons.mpr ⟨htext, hrejected⟩)

theorem settles_decideOn (f : Field α) (offered : List (Source × Bytes)) :
    f.Settles offered (f.decideOn offered).1 (f.decideOn offered).2 := by
  induction offered with
  | nil => exact .fallback (List.forall_mem_nil _)
  | cons c later ih =>
    rw [decideOn]
    split
    · rename_i value hread
      exact .read (List.forall_mem_nil _) hread
    · rename_i hread
      exact ih.cons hread

theorem decideOn_fst (f : Field α) (offered : List (Source × Bytes)) :
    (f.decideOn offered).1 = (offered.findSome? fun c => f.read c.2).getD f.fallback := by
  induction offered with
  | nil => rfl
  | cons c later ih => cases hread : f.read c.2 <;> simp [decideOn, hread, ih]

theorem flatMap_text_decideOn (f : Field α) (offered : List (Source × Bytes)) :
    (f.decideOn offered).2.flatMap Notice.text =
      (offered.takeWhile fun c => (f.read c.2).isNone).flatMap fun c => c.1.complaint c.2 := by
  induction offered with
  | nil => rfl
  | cons c later ih =>
    have htext : (Notice.ignored c.1 c.2).text = c.1.complaint c.2 := by
      obtain ⟨_ | _, text⟩ := c <;> rfl
    cases hread : f.read c.2 <;> simp [decideOn, hread, ih, htext]

theorem decideOn_texts (f : Field α) (assigned exported : Option Bytes) :
    (f.decideOn (f.texts assigned exported)).1 =
      ((assigned.bind f.read).or (exported.bind f.read)).getD f.fallback := by
  rw [decideOn_fst, texts, List.findSome?_append]
  cases assigned <;> cases exported <;> simp

end Field

inductive Setting
  | unknown | anything | mode | dialect
  deriving DecidableEq, Repr

namespace Setting

def all : List Setting := [.unknown, .anything, .mode, .dialect]

abbrev Value : Setting → Type
  | .unknown => UInt8
  | .anything => UInt8
  | .mode => Mode
  | .dialect => Dialect

def field : (s : Setting) → Field s.Value
  | .unknown => Settings.unknownField
  | .anything => Settings.anythingField
  | .mode => Settings.modeField
  | .dialect => Settings.dialectField

def valueIn : (s : Setting) → Settings → s.Value
  | .unknown, settings => settings.tokens.unknown
  | .anything, settings => settings.tokens.anything
  | .mode, settings => settings.mode
  | .dialect, settings => settings.dialect

def variableName : Setting → Bytes
  | .unknown => Bytes.ascii "UNKNOWN"
  | .anything => Bytes.ascii "ANYTHING"
  | .mode => Bytes.ascii "MODE"
  | .dialect => Bytes.ascii "DIALECT"

def reported (s : Setting) (doc : Option Document) (env : Environment) : List Notice :=
  (s.field.resolve doc env).2

/-- What is written for a setting: the last text that the document assigns to its key, if there is a
document, and the text of its variable. -/
structure Offered (s : Setting) (present : Bool) (text : Bytes) (env : Environment)
    (assigned exported : Option Bytes) : Prop where
  assigned_iff : ∀ value, assigned = some value ↔ present = true ∧
    Document.LastAssigns ((Bytes.lines text).map Line.ofText) s.field.heading s.field.key value
  exported_says : env.Says s.variableName exported

variable {s : Setting} {present : Bool} {text : Bytes} {env : Environment}
  {assigned exported : Option Bytes}

theorem envName_field (s : Setting) :
    s.field.envName = Environment.capitals ++ s.variableName := by
  cases s <;> rfl

theorem fallback_field (s : Setting) : s.field.fallback = s.valueIn {} := by
  cases s <;> rfl

theorem valueIn_resolve (s : Setting) (doc : Option Document) (env : Environment) :
    s.valueIn (Settings.resolve doc env).1 = (s.field.resolve doc env).1 := by
  cases s <;> rfl

theorem offered (s : Setting) (present : Bool) (text : Bytes) (env : Environment) :
    s.Offered present text env
      ((Document.given present text).bind (·.get? s.field.heading s.field.key))
      (env.lookup s.field.envName) := by
  refine ⟨fun value => Document.get?_given_iff, ?_⟩
  rw [envName_field]
  exact Environment.says_lookup env s.variableName

theorem Offered.resolve_eq (h : s.Offered present text env assigned exported) :
    s.field.resolve (Document.given present text) env =
      s.field.decideOn (s.field.texts assigned exported) := by
  have hassigned : assigned =
      (Document.given present text).bind (·.get? s.field.heading s.field.key) :=
    Option.ext fun value => by rw [h.assigned_iff, Document.get?_given_iff]
  have hexported := h.exported_says.eq_lookup
  rw [← envName_field] at hexported
  rw [hassigned, hexported]
  rfl

theorem Offered.exported_eq {env' : Environment} {present' : Bool} {text' : Bytes}
    {assigned' exported' : Option Bytes} (h : s.Offered present text env assigned exported)
    (h' : s.Offered present' text' env' assigned' exported')
    (hcapitals : env' (Environment.capitals ++ s.variableName) =
      env (Environment.capitals ++ s.variableName))
    (hsmalls : env' (Environment.smalls ++ s.variableName) =
      env (Environment.smalls ++ s.variableName)) : exported' = exported := by
  rw [h.exported_says.eq_lookup, h'.exported_says.eq_lookup, Environment.lookup_capitals,
    Environment.lookup_capitals]
  simp only [Environment.nonEmpty, hcapitals, hsmalls]

/-- What resolving makes of the texts that are written for a setting. -/
structure Follows (s : Setting) (present : Bool) (text : Bytes) (env : Environment)
    (assigned exported : Option Bytes) : Prop where
  settles : s.field.Settles (s.field.texts assigned exported)
    (s.valueIn (Settings.resolve (Document.given present text) env).1)
    (s.reported (Document.given present text) env)
  told_eq : (s.reported (Document.given present text) env).flatMap Notice.text =
    ((s.field.texts assigned exported).takeWhile fun c => (s.field.read c.2).isNone).flatMap
      fun c => c.1.complaint c.2
  fallback_eq : s.field.fallback = s.valueIn {}
  /-- The value is the same wherever the same can be read, whatever else is written. -/
  value_eq : ∀ {present' : Bool} {text' : Bytes} {env' : Environment}
    {assigned' exported' : Option Bytes}, s.Offered present' text' env' assigned' exported' →
    assigned'.bind s.field.read = assigned.bind s.field.read →
    exported'.bind s.field.read = exported.bind s.field.read →
    s.valueIn (Settings.resolve (Document.given present' text') env').1 =
      s.valueIn (Settings.resolve (Document.given present text) env).1
  /-- Nothing counts but the key and the variable of the setting. -/
  own_only : ∀ {present' : Bool} {text' : Bytes} {env' : Environment}
    {exported' : Option Bytes}, s.Offered present' text' env' assigned exported' →
    env' (Environment.capitals ++ s.variableName) = env (Environment.capitals ++ s.variableName) →
    env' (Environment.smalls ++ s.variableName) = env (Environment.smalls ++ s.variableName) →
    s.valueIn (Settings.resolve (Document.given present' text') env').1 =
        s.valueIn (Settings.resolve (Document.given present text) env).1 ∧
      s.reported (Document.given present' text') env' =
        s.reported (Document.given present text) env

theorem Offered.follows (h : s.Offered present text env assigned exported) :
    s.Follows present text env assigned exported := by
  have hvalue := s.valueIn_resolve (Document.given present text) env
  rw [h.resolve_eq] at hvalue
  refine ⟨?_, ?_, s.fallback_field, ?_, ?_⟩
  · rw [hvalue, reported, h.resolve_eq]
    exact s.field.settles_decideOn (s.field.texts assigned exported)
  · rw [reported, h.resolve_eq]
    exact s.field.flatMap_text_decideOn (s.field.texts assigned exported)
  · intro present' text' env' assigned' exported' h' hassigned hexported
    rw [hvalue, valueIn_resolve, h'.resolve_eq, Field.decideOn_texts, Field.decideOn_texts,
      hassigned, hexported]
  · intro present' text' env' exported' h' hcapitals hsmalls
    obtain rfl := h.exported_eq h' hcapitals hsmalls
    rw [hvalue, valueIn_resolve, reported, reported, h'.resolve_eq, h.resolve_eq]
    exact ⟨rfl, rfl⟩

end Setting

namespace Settings

open Setting

theorem notices_resolve (doc : Option Document) (env : Environment) :
    (resolve doc env).2 = Setting.all.flatMap fun s => s.reported doc env := by
  simp [resolve, Setting.all, reported, field]

theorem load_fst (path : Bytes) (env : Environment) (files : Bytes → Option Bytes) :
    (load path env files).1 =
      (resolve ((if (documentPath path env).isEmpty then none
        else files (Bytes.beforeNul (documentPath path env))).map Document.ofText) env).1 := by
  rw [load]
  dsimp only
  split
  · rename_i text hfile
    rw [hfile]
    rfl
  · rename_i hfile
    rw [hfile]
    rfl

/-- Every setting is read from the first text that can be read, with a notice and a line on standard
error for each text before, and follows nothing but its own key and variable. A file that cannot be
read counts as empty. -/
theorem resolve_follows_sources (present : Bool) (text : Bytes) (env : Environment) :
    (resolve (Document.given present text) env).2 =
        Setting.all.flatMap (fun s => s.reported (Document.given present text) env) ∧
      (∀ s : Setting, ∃ assigned exported, s.Offered present text env assigned exported ∧
        s.Follows present text env assigned exported) ∧
      ∀ (path : Bytes) (files : Bytes → Option Bytes),
        documentPath path env = [] ∨ files (Bytes.beforeNul (documentPath path env)) = none →
        (load path env files).1 = (resolve (some (Document.ofText [])) env).1 ∧
          ∀ files' : Bytes → Option Bytes,
            files' (Bytes.beforeNul (documentPath path env)) = some [] →
            (load path env files).1 = (load path env files').1 := by
  refine ⟨notices_resolve _ env, ?_, ?_⟩
  · intro s
    have h := s.offered present text env
    exact ⟨_, _, h, h.follows⟩
  · intro path files hmissing
    have hempty : (resolve none env).1 = (resolve (some (Document.ofText [])) env).1 := rfl
    have hload : (load path env files).1 = (resolve none env).1 := by
      rw [load_fst]
      rcases hmissing with h | h <;> simp [h]
    refine ⟨hload.trans hempty, fun files' hfile => ?_⟩
    rw [hload, load_fst, hfile]
    split
    · rfl
    · exact hempty

/-- The document has two characters for a token, and the capital variable for the mode is empty. -/
example :
    resolve (Document.given true (Bytes.ascii "[pattern]\nunknown_token = '??'"))
        (Environment.ofPairs [(Bytes.ascii "WILDREX_MODE", []),
          (Bytes.ascii "wildrex_MODE", Bytes.ascii "Like")]) =
      ({ mode := .anywhere }, [.ignored (.entry (Bytes.ascii "pattern")
        (Bytes.ascii "unknown_token")) [63, 63]]) := by
  decide +kernel

end Settings
end Config
end Wildcard
