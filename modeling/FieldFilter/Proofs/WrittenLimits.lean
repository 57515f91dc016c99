import FieldFilter.Cache.Setting
import Mathlib.Data.List.Forall2

/-!
# What written limits say

A text is read piece by piece, and the first piece that is wrong ends it.  So a text is accepted
just if all of its pieces are settings, whatever order they stand in.  Each setting writes over what
was there for its key, hence the last one counts.

Limits are rendered with their durations in milliseconds.  These are computed without bound, while a
number is only read below two to the power of 64.  Eighteen quintillion seconds can be read, and as
milliseconds they cannot.

* `Limits.set_eq_ok_iff`, `Limits.isSetting_trim_iff` — what one piece sets.
* `Limits.setAll_eq_ok_iff`, `Limits.get_foldl_apply` — all pieces, and what counts of them.
* **`Limits.read_eq_ok_iff`** — which texts are read, and as what limits.
* `Limits.isSetting_text_iff`, `Limits.pieces_render` — what is rendered falls into its settings
  again.
* **`Limits.read_render_iff`** — limits that were read are rendered and read again just if their
  durations fit.
* `Limits.read_render_longTime_ne` — a duration that is too long to be read again.
-/

namespace FieldFilter.Limits

variable {limits after : Limits} {name : String} {text piece : List Char}

/-! ## The texts of values -/

theorem unit?_eq_some_iff {written : List Char} {milliseconds : Nat} :
    unit? written = some milliseconds
      ↔ ∃ unit ∈ units, written = unit.1.toList ∧ unit.2 = milliseconds := by
  unfold unit?
  simp only [units, List.mem_cons, List.not_mem_nil, or_false, exists_eq_or_imp, exists_eq_left]
  split_ifs <;> simp_all

/-- No unit starts with a digit, so the digits of a duration end where its unit starts. -/
theorem digits_append_unit {digits : List Char} (hdigits : ∀ c ∈ digits, c.isDigit = true)
    {unit : String × Nat} (hunit : unit ∈ units) :
    (digits ++ unit.1.toList).takeWhile Char.isDigit = digits
      ∧ (digits ++ unit.1.toList).dropWhile Char.isDigit = unit.1.toList := by
  have hall : ∀ unit ∈ units, unit.1.toList.takeWhile Char.isDigit = []
      ∧ unit.1.toList.dropWhile Char.isDigit = unit.1.toList := by decide
  obtain ⟨htake, hdrop⟩ := hall unit hunit
  rw [List.takeWhile_append_of_pos hdigits, List.dropWhile_append_of_pos hdigits, htake, hdrop,
    List.append_nil]
  exact ⟨rfl, rfl⟩

/-- The durations that are read are those that are written as such. -/
theorem duration_eq_ok_iff {time : Nat} :
    duration name text = .ok time ↔ IsDuration (Text.trim text) time := by
  unfold duration
  simp only
  generalize Text.trim text = written
  constructor
  · intro h
    cases hamount : Text.word? (written.takeWhile Char.isDigit) with
    | none => simp only [hamount, reduceCtorEq] at h
    | some amount =>
      cases hunit : unit? (written.dropWhile Char.isDigit) with
      | none => simp only [hamount, hunit, reduceCtorEq] at h
      | some milliseconds =>
        simp only [hamount, hunit, Except.ok.injEq] at h
        obtain ⟨unit, hmem, hwritten, rfl⟩ := unit?_eq_some_iff.1 hunit
        refine ⟨_, amount, unit, hmem, ?_, Text.word?_eq_some_iff.1 hamount, h.symm⟩
        rw [← hwritten, List.takeWhile_append_dropWhile]
  · rintro ⟨digits, amount, unit, hmem, rfl, hdigits, rfl⟩
    obtain ⟨htake, hdrop⟩ := digits_append_unit hdigits.isDigit hmem
    have hunit : unit? unit.1.toList = some unit.2 := unit?_eq_some_iff.2 ⟨unit, hmem, rfl, rfl⟩
    simp only [htake, hdrop, Text.word?_eq_some_iff.2 hdigits, hunit]

/-! ## One setting -/

theorem Key.name_inj {key other : Key} (h : key.name = other.name) : key = other := by
  revert h
  cases key <;> cases other <;> decide

theorem Key.name_notMem_idleNames (key : Key) : key.name ∉ idleNames := by
  cases key <;> decide

/-- Limits with what a setting sets. -/
def apply (limits : Limits) : Option Setting → Limits
  | none => limits
  | some setting => limits.put setting.key setting.value

theorem takes_maximumSize_iff {value : Nat} :
    Key.maximumSize.Takes text value ↔ Text.signedWord? text = some value :=
  Text.signedWord?_eq_some_iff.symm

/-- Of a key the texts that it takes are accepted. -/
theorem set_key_eq_ok_iff (key : Key) :
    limits.set key.name text = .ok after
      ↔ ∃ value, key.Takes (Text.trim text) value ∧ after = limits.put key value := by
  have hduration : ∀ key : Key, (duration key.name text).map (limits.put key) = .ok after
      ↔ ∃ time, IsDuration (Text.trim text) time ∧ after = limits.put key time := by
    intro key
    simp only [← @duration_eq_ok_iff key.name]
    cases duration key.name text with
    | error fault => simp [Except.map]
    | ok time => simp [Except.map, eq_comm]
  cases key with
  | maximumSize =>
    have hname : Key.maximumSize.name = "maximumSize" := rfl
    rw [hname, set, if_pos rfl]
    simp only [takes_maximumSize_iff]
    cases Text.signedWord? (Text.trim text) with
    | none => simp
    | some size => simp [put, eq_comm]
  | expireAfterWrite => exact hduration .expireAfterWrite
  | expireAfterAccess => exact hduration .expireAfterAccess

/-- A name that is no key sets nothing, if it is known at all. -/
theorem set_of_ne (hkey : ∀ key : Key, name ≠ key.name) :
    limits.set name text = if name ∈ idleNames then .ok limits else .error (.unknownKey name) := by
  have hsize : name ≠ "maximumSize" := hkey .maximumSize
  have hwrite : name ≠ "expireAfterWrite" := hkey .expireAfterWrite
  have haccess : name ≠ "expireAfterAccess" := hkey .expireAfterAccess
  rw [set, if_neg hsize, if_neg hwrite, if_neg haccess]
  simp only [idleNames, List.mem_cons, List.not_mem_nil, or_false]

/-- A name and a text are accepted just if they set something, or nothing by an idle name. -/
theorem set_eq_ok_iff :
    limits.set name text = .ok after
      ↔ ∃ setting, Assigns name.toList (Text.trim text) setting ∧ after = limits.apply setting := by
  constructor
  · intro h
    by_cases hkey : ∃ key : Key, name = key.name
    · obtain ⟨key, rfl⟩ := hkey
      obtain ⟨value, htakes, rfl⟩ := (set_key_eq_ok_iff key).1 h
      exact ⟨some ⟨key, value⟩, .sets htakes, rfl⟩
    · rw [set_of_ne (not_exists.1 hkey)] at h
      split at h
      · next hidle => exact ⟨none, .idle hidle _, (Except.ok.inj h).symm⟩
      · cases h
  · rintro ⟨setting, hassigns, rfl⟩
    generalize hname : name.toList = written at hassigns
    cases hassigns with
    | @sets key written value htakes =>
      obtain rfl := String.toList_inj.1 hname
      exact (set_key_eq_ok_iff key).2 ⟨value, htakes, rfl⟩
    | @idle known hknown written =>
      obtain rfl := String.toList_inj.1 hname
      rw [set_of_ne fun key heq => key.name_notMem_idleNames (heq ▸ hknown), if_pos hknown]
      rfl

/-! ## One piece -/

/-- No name that is known holds an equals sign. -/
theorem Assigns.notMem_name {name text : List Char} {setting : Option Setting}
    (h : Assigns name text setting) : '=' ∉ name := by
  cases h with
  | @sets key => cases key <;> decide
  | @idle known hknown =>
    have hall : ∀ known ∈ idleNames, '=' ∉ known.toList := by decide
    exact hall known hknown

/-- What a piece sets is told by the name and the text that it is cut into. -/
theorem isSetting_iff_cut? {setting : Option Setting} :
    IsSetting piece setting
      ↔ ∃ name text, Text.cut? '=' piece = some (name, text)
        ∧ Assigns (Text.trim name) (Text.trim text) setting := by
  constructor
  · rintro ⟨name, text, hpiece, hassigns⟩
    have hfree : '=' ∉ name := fun hmem => hassigns.notMem_name (Text.mem_trim hmem (by decide))
    exact ⟨name, text, Text.cut?_eq_some_iff.2 ⟨hpiece, hfree⟩, hassigns⟩
  · rintro ⟨name, text, hcut, hassigns⟩
    exact ⟨name, text, (Text.cut?_eq_some_iff.1 hcut).1, hassigns⟩

/-- Blanks around a piece do not change what it sets. -/
theorem isSetting_trim_iff {setting : Option Setting} :
    IsSetting (Text.trim piece) setting ↔ IsSetting piece setting := by
  have hpads := Text.pads_trim piece
  generalize Text.trim piece = trimmed at hpads
  constructor
  · rintro ⟨name, text, rfl, hassigns⟩
    obtain ⟨before, after, hbefore, hafter, rfl⟩ := hpads
    have hname : Text.Pads name (before ++ name) := ⟨before, [], hbefore, rfl, by simp⟩
    have htext : Text.Pads text (text ++ after) := ⟨[], after, rfl, hafter, by simp⟩
    rw [← hname.trim_eq, ← htext.trim_eq] at hassigns
    exact ⟨before ++ name, text ++ after, by simp, hassigns⟩
  · rintro ⟨name, text, rfl, hassigns⟩
    obtain ⟨name', text', rfl, hname, htext⟩ := hpads.cut (by decide)
    rw [hname.trim_eq, htext.trim_eq] at hassigns
    exact ⟨name', text', rfl, hassigns⟩

/-! ## All pieces -/

theorem setAll_cons_eq_ok_iff {rest : List (List Char)} :
    limits.setAll (piece :: rest) = .ok after
      ↔ ∃ setting, IsSetting piece setting ∧ (limits.apply setting).setAll rest = .ok after := by
  rw [setAll]
  constructor
  · intro h
    cases hcut : Text.cut? '=' piece with
    | none => simp only [hcut, reduceCtorEq] at h
    | some cut =>
      obtain ⟨name, text⟩ := cut
      cases hset : limits.set (String.ofList (Text.trim name)) text with
      | error fault => simp only [hcut, hset, reduceCtorEq] at h
      | ok between =>
        simp only [hcut, hset] at h
        obtain ⟨setting, hassigns, rfl⟩ := set_eq_ok_iff.1 hset
        rw [String.toList_ofList] at hassigns
        exact ⟨setting, isSetting_iff_cut?.2 ⟨name, text, hcut, hassigns⟩, h⟩
  · rintro ⟨setting, hsetting, h⟩
    obtain ⟨name, text, hcut, hassigns⟩ := isSetting_iff_cut?.1 hsetting
    rw [← String.toList_ofList (l := Text.trim name)] at hassigns
    simp only [hcut, set_eq_ok_iff.2 ⟨setting, hassigns, rfl⟩, h]

/-- All pieces are accepted just if each is a setting, and then they count one after the other. -/
theorem setAll_eq_ok_iff {pieces : List (List Char)} :
    limits.setAll pieces = .ok after
      ↔ ∃ settings, List.Forall₂ IsSetting pieces settings
        ∧ after = settings.foldl apply limits := by
  induction pieces generalizing limits with
  | nil =>
    rw [setAll]
    constructor
    · intro h
      exact ⟨[], .nil, (Except.ok.inj h).symm⟩
    · rintro ⟨settings, hsettings, rfl⟩
      cases hsettings
      rfl
  | cons piece rest ih =>
    simp only [setAll_cons_eq_ok_iff, ih]
    constructor
    · rintro ⟨setting, hsetting, settings, hsettings, rfl⟩
      exact ⟨setting :: settings, .cons hsetting hsettings, rfl⟩
    · rintro ⟨settings, hsettings, rfl⟩
      cases hsettings with
      | cons hsetting hrest => exact ⟨_, hsetting, _, hrest, rfl⟩

/-! ## The last setting counts -/

theorem get_apply (limits : Limits) (setting : Option Setting) (key : Key) :
    (limits.apply setting).get key = (setting.bind (Setting.value? key)).or (limits.get key) := by
  cases setting with
  | none => rfl
  | some setting =>
    obtain ⟨other, value⟩ := setting
    cases other <;> cases key <;> rfl

theorem last?_cons (key : Key) (setting : Option Setting) (rest : List (Option Setting)) :
    last? key (setting :: rest) = (last? key rest).or (setting.bind (Setting.value? key)) := by
  unfold last?
  cases hvalue : setting.bind (Setting.value? key) with
  | none => simp [hvalue]
  | some value =>
    rw [List.filterMap_cons, hvalue, List.getLast?_cons]
    cases (rest.filterMap fun setting => setting.bind (Setting.value? key)).getLast? <;> rfl

/-- After settings that count one after the other each key has its last number. -/
theorem get_foldl_apply (settings : List (Option Setting)) (limits : Limits) (key : Key) :
    (settings.foldl apply limits).get key = (last? key settings).or (limits.get key) := by
  induction settings generalizing limits with
  | nil => rfl
  | cons setting rest ih => rw [List.foldl_cons, ih, get_apply, last?_cons, Option.or_assoc]

/-- Limits are what they have for each key. -/
theorem eq_iff_get {limits other : Limits} :
    limits = other ↔ ∀ key, limits.get key = other.get key := by
  constructor
  · rintro rfl key
    rfl
  · intro h
    obtain ⟨size, write, access⟩ := limits
    obtain ⟨size', write', access'⟩ := other
    have hsize : size = size' := h .maximumSize
    have hwrite : write = write' := h .expireAfterWrite
    have haccess : access = access' := h .expireAfterAccess
    rw [hsize, hwrite, haccess]

theorem get_unlimited (key : Key) : unlimited.get key = none := by
  cases key <;> rfl

/-! ## Reading -/

theorem read_eq (text : String) : read text = unlimited.setAll ((pieces text).map Text.trim) := by
  have hblank : ∀ piece, (!(Text.trim piece).isEmpty) = !Text.isAllBlank piece := by
    intro piece
    rw [Bool.not_inj_iff, Bool.eq_iff_iff, List.isEmpty_iff, Text.trim_eq_nil_iff]
  rw [read, List.filter_map, pieces]
  simp only [Function.comp_def, hblank]

/-- A text is read just if its pieces are settings, and then each key has its last number. -/
theorem read_eq_ok_iff_settings {text : String} :
    read text = .ok limits
      ↔ ∃ settings, List.Forall₂ IsSetting (pieces text) settings
        ∧ ∀ key, limits.get key = last? key settings := by
  simp only [read_eq, setAll_eq_ok_iff, List.forall₂_map_left_iff, isSetting_trim_iff, eq_iff_get,
    get_foldl_apply, get_unlimited, Option.or_none]

theorem exists_forall₂_iff {α β : Type} {R : α → β → Prop} {items : List α} :
    (∃ others, List.Forall₂ R items others) ↔ ∀ item ∈ items, ∃ other, R item other := by
  induction items with
  | nil => simp
  | cons item rest ih =>
    rw [List.forall_mem_cons, ← ih]
    constructor
    · rintro ⟨others, hothers⟩
      cases hothers with
      | cons hfirst hrest => exact ⟨⟨_, hfirst⟩, _, hrest⟩
    · rintro ⟨⟨other, hfirst⟩, others, hrest⟩
      exact ⟨other :: others, .cons hfirst hrest⟩

theorem isOk_read_iff {text : String} :
    (read text).isOk = true ↔ ∃ limits, read text = .ok limits := by
  cases read text <;> simp [Except.isOk, Except.toBool]

/-- Limits with the last numbers of some settings. -/
theorem exists_get_eq_last? (settings : List (Option Setting)) :
    ∃ limits : Limits, ∀ key, limits.get key = last? key settings := by
  refine ⟨settings.foldl apply unlimited, fun key => ?_⟩
  rw [get_foldl_apply, get_unlimited, Option.or_none]

/-- **Which texts are limits.**  A text is read just if each of its pieces is a setting or blank,
and then each key has the number of the last setting with it, or none without one.  The milliseconds
of a duration are its amount times those of its unit, however many these are. -/
theorem read_eq_ok_iff (text : String) :
    ((read text).isOk = true ↔ ∀ piece ∈ pieces text, ∃ setting, IsSetting piece setting)
      ∧ ∀ limits, read text = .ok limits
        ↔ ∃ settings, List.Forall₂ IsSetting (pieces text) settings
          ∧ ∀ key, limits.get key = last? key settings := by
  refine ⟨?_, fun limits => read_eq_ok_iff_settings⟩
  rw [isOk_read_iff, ← exists_forall₂_iff]
  constructor
  · rintro ⟨limits, h⟩
    obtain ⟨settings, hsettings, -⟩ := read_eq_ok_iff_settings.1 h
    exact ⟨settings, hsettings⟩
  · rintro ⟨settings, hsettings⟩
    obtain ⟨limits, hlimits⟩ := exists_get_eq_last? settings
    exact ⟨limits, read_eq_ok_iff_settings.2 ⟨settings, hsettings, hlimits⟩⟩

/-! ## Rendering -/

theorem render_eq (limits : Limits) :
    limits.render = ",".intercalate (limits.settings.map Setting.text) := by
  obtain ⟨_ | size, _ | write, _ | access⟩ := limits <;> rfl

theorem Setting.toList_text (setting : Setting) :
    setting.text.toList = setting.key.name.toList
      ++ '=' :: (Nat.toDigits 10 setting.value ++ setting.key.unit.toList) := by
  rw [Setting.text, Nat.toString_eq_ofList_toDigits]
  simp

/-- Rendered settings hold no blanks and no commas. -/
theorem Setting.forall_mem_text (setting : Setting) :
    ∀ c ∈ setting.text.toList, Text.isBlank c = false ∧ c ≠ ',' := by
  have hnames : ∀ key : Key, (key.name.toList ++ '=' :: key.unit.toList).all
      (fun c => !Text.isBlank c && c != ',') = true := by
    intro key
    cases key <;> decide
  intro c hmem
  rw [Setting.toList_text] at hmem
  by_cases hdigit : c ∈ Nat.toDigits 10 setting.value
  · have hdigit := Nat.isDigit_of_mem_toDigits (by decide) (by decide) hdigit
    refine ⟨Text.isBlank_of_isDigit hdigit, ?_⟩
    rintro rfl
    cases hdigit
  · have hname : c ∈ setting.key.name.toList ++ '=' :: setting.key.unit.toList := by
      simp only [List.mem_append, List.mem_cons] at hmem ⊢
      tauto
    simpa using List.all_eq_true.1 (hnames setting.key) c hname

theorem pieces_render (limits : Limits) :
    pieces limits.render = limits.settings.map fun setting => setting.text.toList := by
  have htext : ∀ setting : Setting, ',' ∉ setting.text.toList
      ∧ Text.isAllBlank setting.text.toList = false := by
    intro setting
    refine ⟨fun hmem => (setting.forall_mem_text _ hmem).2 rfl, Bool.eq_false_iff.2 fun hall => ?_⟩
    -- the equals sign is no blank
    refine Text.not_mem_of_isAllBlank (c := '=') (by decide) hall ?_
    simp [Setting.toList_text]
  rw [pieces, render_eq, String.toList_intercalate, List.map_map]
  by_cases hempty : limits.settings = []
  · rw [hempty]
    rfl
  · have hfree : ∀ text ∈ limits.settings.map (String.toList ∘ Setting.text), ',' ∉ text :=
      List.forall_mem_map.2 fun setting _ => (htext setting).1
    have hsplit := Text.pieces_intercalate (mt List.map_eq_nil_iff.1 hempty) hfree
    rw [show ",".toList = [','] from rfl, hsplit]
    refine List.filter_eq_self.2 (List.forall_mem_map.2 fun setting _ => ?_)
    rw [Function.comp_apply, (htext setting).2]
    rfl

/-! ## Reading what is rendered -/

/-- Digits and the unit that durations are rendered with are the duration of those milliseconds. -/
theorem isDuration_append_ms_iff {digits : List Char} (hdigits : ∀ c ∈ digits, c.isDigit = true)
    {time : Nat} : IsDuration (digits ++ "ms".toList) time ↔ Text.IsNumeral digits time := by
  have hms : ("ms", 1) ∈ units := List.mem_cons_self
  constructor
  · rintro ⟨others, amount, unit, hunit, heq, hnumeral, rfl⟩
    -- where the digits end, the unit starts on both sides
    obtain ⟨htake, hdrop⟩ := digits_append_unit hdigits hms
    obtain ⟨htake', hdrop'⟩ := digits_append_unit hnumeral.isDigit hunit
    rw [heq, htake'] at htake
    rw [heq, hdrop'] at hdrop
    have hone : ∀ unit ∈ units, unit.1.toList = "ms".toList → unit.2 = 1 := by decide
    rwa [hone unit hunit hdrop, Nat.mul_one, ← htake]
  · intro h
    exact ⟨digits, time, _, hms, rfl, h, (Nat.mul_one time).symm⟩

/-- A key takes its rendered number just if that fits into sixty-four bits. -/
theorem Key.takes_rendered_iff (key : Key) {value other : Nat} :
    key.Takes (Nat.toDigits 10 value ++ key.unit.toList) other
      ↔ other = value ∧ value < Text.wordBound := by
  have hdigits : ∀ c ∈ Nat.toDigits 10 value, c.isDigit = true :=
    fun c hmem => Nat.isDigit_of_mem_toDigits (by decide) (by decide) hmem
  rw [← Text.isNumeral_toDigits_iff]
  cases key with
  | maximumSize =>
    simp only [Key.Takes, Key.unit, String.toList_empty, List.append_nil]
    refine or_iff_left ?_
    rintro ⟨digits, heq, -⟩
    exact absurd (hdigits '+' (heq ▸ List.mem_cons_self)) (by decide)
  | expireAfterWrite => exact isDuration_append_ms_iff hdigits
  | expireAfterAccess => exact isDuration_append_ms_iff hdigits

/-- A key is set to a number that its text is taken for, and nothing else. -/
theorem assigns_name_iff (key : Key) {setting : Option Setting} :
    Assigns key.name.toList text setting
      ↔ ∃ value, key.Takes text value ∧ setting = some ⟨key, value⟩ := by
  constructor
  · intro h
    generalize hname : key.name.toList = name at h
    cases h with
    | @sets other _ value htakes =>
      obtain rfl := Key.name_inj (String.toList_inj.1 hname)
      exact ⟨value, htakes, rfl⟩
    | @idle known hknown =>
      rw [← String.toList_inj.1 hname] at hknown
      exact absurd hknown key.name_notMem_idleNames
  · rintro ⟨value, htakes, rfl⟩
    exact .sets htakes

/-- A rendered setting sets what it was rendered from, or nothing can be made of it. -/
theorem isSetting_text_iff (setting : Setting) {other : Option Setting} :
    IsSetting setting.text.toList other
      ↔ other = some setting ∧ setting.value < Text.wordBound := by
  have hcut : Text.cut? '=' setting.text.toList = some (setting.key.name.toList,
      Nat.toDigits 10 setting.value ++ setting.key.unit.toList) := by
    refine Text.cut?_eq_some_iff.2 ⟨setting.toList_text, ?_⟩
    cases setting.key <;> decide
  have hblank : ∀ c ∈ setting.text.toList, Text.isBlank c = false :=
    fun c hmem => (setting.forall_mem_text c hmem).1
  rw [Setting.toList_text, List.forall_mem_append, List.forall_mem_cons] at hblank
  obtain ⟨hname, -, hvalue⟩ := hblank
  calc IsSetting setting.text.toList other
      ↔ Assigns setting.key.name.toList (Nat.toDigits 10 setting.value ++ setting.key.unit.toList)
          other := by
        simp only [isSetting_iff_cut?, hcut, Option.some.injEq, Prod.mk.injEq, and_assoc,
          exists_and_left, exists_eq_left', Text.trim_eq_self hname, Text.trim_eq_self hvalue]
    _ ↔ ∃ value, (value = setting.value ∧ setting.value < Text.wordBound)
          ∧ other = some ⟨setting.key, value⟩ := by
        simp only [assigns_name_iff, Key.takes_rendered_iff]
    _ ↔ other = some setting ∧ setting.value < Text.wordBound := by
        simp only [and_assoc, exists_eq_left]
        exact and_comm

/-- The settings of limits have each number once. -/
theorem last?_settings (limits : Limits) (key : Key) :
    last? key (limits.settings.map some) = limits.get key := by
  obtain ⟨_ | size, _ | write, _ | access⟩ := limits <;> cases key <;> rfl

/-- Rendered limits are read as the same limits just if each number fits into sixty-four bits, and
not at all otherwise. -/
theorem read_render_eq_ok_iff :
    read limits.render = .ok after
      ↔ after = limits ∧ ∀ setting ∈ limits.settings, setting.value < Text.wordBound := by
  have hsettings : ∀ settings, List.Forall₂ IsSetting (pieces limits.render) settings
      ↔ limits.settings.map some = settings
        ∧ ∀ setting ∈ limits.settings, setting.value < Text.wordBound := by
    intro settings
    have hpair : ∀ setting : Setting, ∀ other : Option Setting,
        IsSetting setting.text.toList other
          ↔ setting.value < Text.wordBound ∧ some setting = other :=
      fun setting other => by rw [isSetting_text_iff, and_comm, eq_comm]
    simp only [pieces_render, List.forall₂_map_left_iff, hpair]
    rw [List.forall₂_and_left, and_comm, ← List.forall₂_eq_eq_eq, List.forall₂_map_left_iff]
  simp only [read_eq_ok_iff_settings, hsettings, and_assoc, exists_eq_left', last?_settings]
  rw [and_comm, eq_iff_get]

/-! ## What fits -/

theorem Setting.value?_eq_some_iff {key : Key} {setting : Setting} {value : Nat} :
    setting.value? key = some value ↔ setting = ⟨key, value⟩ := by
  obtain ⟨other, value'⟩ := setting
  simp [Setting.value?]

theorem mem_of_last? {key : Key} {settings : List (Option Setting)} {value : Nat}
    (h : last? key settings = some value) : some ⟨key, value⟩ ∈ settings := by
  obtain ⟨setting, hmem, hvalue⟩ := List.mem_filterMap.1 (List.mem_of_getLast? h)
  obtain ⟨setting, rfl, hvalue⟩ := Option.bind_eq_some_iff.1 hvalue
  rwa [Setting.value?_eq_some_iff.1 hvalue] at hmem

theorem Assigns.takes {name text : List Char} {setting : Setting}
    (h : Assigns name text (some setting)) : setting.key.Takes text setting.value := by
  generalize hset : some setting = other at h
  cases h with
  | sets htakes =>
    obtain rfl := Option.some.inj hset
    exact htakes
  | idle => cases hset

/-- A greatest number of entries that is read fits into sixty-four bits. -/
theorem maximumSize_lt_of_read {text : String} (h : read text = .ok limits) :
    ∀ size ∈ limits.maximumSize, size < Text.wordBound := by
  intro size hsize
  obtain ⟨settings, hsettings, hlast⟩ := read_eq_ok_iff_settings.1 h
  have hmem := mem_of_last? ((hlast .maximumSize).symm.trans hsize)
  obtain ⟨piece, hpiece⟩ := exists_forall₂_iff.1 ⟨_, hsettings.flip⟩ _ hmem
  obtain ⟨name, written, -, hassigns⟩ := hpiece
  rcases hassigns.takes with hnumeral | ⟨digits, -, hnumeral⟩
  · exact hnumeral.lt
  · exact hnumeral.lt

theorem mem_settings_iff {key : Key} {value : Nat} :
    ⟨key, value⟩ ∈ limits.settings ↔ limits.get key = some value := by
  cases key <;> simp [settings, get]

theorem timesFit_iff (h : ∀ size ∈ limits.maximumSize, size < Text.wordBound) :
    (∀ setting ∈ limits.settings, setting.value < Text.wordBound) ↔ limits.TimesFit := by
  constructor
  · intro hall
    exact ⟨fun time htime => hall ⟨.expireAfterWrite, time⟩ (mem_settings_iff.2 htime),
      fun time htime => hall ⟨.expireAfterAccess, time⟩ (mem_settings_iff.2 htime)⟩
  · rintro ⟨hwrite, haccess⟩ ⟨key, value⟩ hmem
    have hvalue := mem_settings_iff.1 hmem
    cases key with
    | maximumSize => exact h value hvalue
    | expireAfterWrite => exact hwrite value hvalue
    | expireAfterAccess => exact haccess value hvalue

/-- **Limits that were read are rendered and read again**, just if their durations fit into
sixty-four bits as milliseconds.  What is read again are the same limits then; otherwise nothing is,
and the text that they are rendered as is refused. -/
theorem read_render_iff {text : String} (h : read text = .ok limits) (after : Limits) :
    read limits.render = .ok after ↔ after = limits ∧ limits.TimesFit := by
  rw [read_render_eq_ok_iff, timesFit_iff (maximumSize_lt_of_read h)]

/-- Limits with blanks, a plus sign and ten minutes, which are rendered without the former and in
milliseconds. -/
theorem read_render_threeLimits :
    let limits : Limits := ⟨some 500, some 600000, some 250⟩
    read " maximumSize = +500 ,, expireAfterWrite=10m,expireAfterAccess=250ms" = .ok limits
      ∧ limits.render = "maximumSize=500,expireAfterWrite=600000ms,expireAfterAccess=250ms"
      ∧ read limits.render = .ok limits := by
  intro limits
  have hread : read " maximumSize = +500 ,, expireAfterWrite=10m,expireAfterAccess=250ms"
      = .ok limits := by decide +kernel
  have hfits : limits.TimesFit := by simp [limits, TimesFit, Text.wordBound]
  exact ⟨hread, by decide +kernel, (read_render_iff hread limits).2 ⟨rfl, hfits⟩⟩

/-- **A long duration is read and cannot be read again.**  Its seconds fit into sixty-four bits, and
its milliseconds do not. -/
theorem read_render_longTime_ne :
    ∃ limits, read "expireAfterWrite=18446744073709551615s" = .ok limits
      ∧ limits.render = "expireAfterWrite=18446744073709551615000ms"
      ∧ read limits.render
        = .error (.noNumber "expireAfterWrite" "18446744073709551615000ms") := by
  exact ⟨⟨none, some 18446744073709551615000, none⟩, by decide +kernel⟩

end FieldFilter.Limits
