import Lineage.Codec.Outcome
import Lineage.Config
import Lineage.Proofs.Fallible
import Lineage.Proofs.Json.Codec
import Lineage.Proofs.Json.Normal

/-!
# The forms of the library in JSON

Names, attributes, instances, outcomes, rules and settings are decoded from their forms in
JSON (`codecs_roundTrip`). What is decoded need not have been encoded: fields come in any
order or by their place, those that may be missing are missing, words are tagged, values
are not in normal form. Encoding what has been decoded settles all that, and decodes to the
same value again.

Free-form values are decoded to their normal form, so instances and configurations are
decoded from their forms if their free-form values are normal. Those that are decoded are,
and so are those that are made of normal ones (`Instance.normal_set`,
`Config.normal_merge`).
-/

namespace Lineage

open Json

/-! ### Names, words and value types -/

instance : Codec.Lawful TypeKey where
  decode?_encode _ := rfl

instance : Codec.Lawful Credential where
  decode?_encode _ := rfl

instance : Codec.Lawful AttributeKind where
  decode?_encode k := by cases k <;> rfl

instance : Codec.Lawful LogLevel where
  decode?_encode l := by cases l <;> rfl

instance : Codec.Lawful FailurePolicy where
  decode?_encode p := by cases p <;> rfl

instance : Codec.Lawful ValueType where
  decode?_encode t := by
    change ValueType.ofJson? t.toJson = some t
    induction t with
    | scalar name => rfl
    | named k => rfl
    | collection t ih => exact congrArg (Option.map ValueType.collection) ih
    | array t ih => exact congrArg (Option.map ValueType.array) ih

/-! ### Records -/

instance : Codec.Lawful Attribute where
  decode?_encode a := by
    refine Eq.trans (record?_bind (.refl _) (by decide)) ?_
    simp [Record.field?, List.lookup_cons]

instance : Codec.Lawful Requirement where
  decode?_encode q := by
    refine Eq.trans (record?_bind (.refl _) (by decide)) ?_
    simp [Record.field?, List.lookup_cons]

theorem encode_string_ne_null (s : String) : encode s ≠ .null :=
  nofun

theorem encode_bool_ne_null (b : Bool) : encode b ≠ .null :=
  nofun

instance : Codec.Lawful Violation where
  decode?_encode v := by
    refine Eq.trans (record?_bind (.refl _) (by decide)) ?_
    rw [Record.optional?_encodeOption encode_string_ne_null rfl]
    simp [Record.field?, List.lookup_cons]

instance : Codec.Lawful Outcome where
  decode?_encode o := by
    refine Eq.trans (record?_bind (.refl _) (by decide)) ?_
    simp [Record.field?]

instance : Codec.Lawful ReadRule where
  decode?_encode r := by
    refine Eq.trans (record?_bind (.refl _) (by decide)) ?_
    rw [Record.optional?_encodeOption encode_bool_ne_null rfl,
      Record.optional?_encodeOption encode_string_ne_null rfl]
    simp [Record.field?, List.lookup_cons]

instance : Codec.Lawful TypeAlias where
  decode?_encode a := by
    refine Eq.trans (record?_bind (.refl _) (by decide)) ?_
    simp [Record.field?, List.lookup_cons]

instance : Codec.Lawful RuleSet where
  decode?_encode s := by
    refine Eq.trans (record?_bind (.refl _) (by decide)) ?_
    simp [Record.field?, List.lookup_cons]

/-! ### Settings and their defaults -/

/-- Of the settings of logging those that are left out have their defaults. -/
theorem LoggingConfig.decode?_only (c : LoggingConfig) (keep : String → Bool) :
    decode? (only keep (encode c)) = some ({
      enabled := if keep "enabled" then c.enabled else true
      level := if keep "level" then c.level else .info } : LoggingConfig) := by
  refine Eq.trans (record?_bind (List.filter_sublist.map _) ?_) ?_
  · exact (by decide : ["enabled", "level"].Nodup)
  simp only [Record.default?]
  rw [Record.defaultBy?_only rfl (decode?_encode c.enabled),
    Record.defaultBy?_only rfl (decode?_encode c.level)]
  rfl

instance : Codec.Lawful LoggingConfig where
  decode?_encode c := c.decode?_only fun _ => true

namespace Config

/-- Of the settings those that are left out have their defaults. -/
theorem decode?_only {c : Config} (hc : c.extra.Normal) (keep : String → Bool) :
    decode? (only keep (encode c)) = some ({
      rootMarker := if keep "root_marker" then c.rootMarker else "Resource"
      failurePolicy := if keep "failure_policy" then c.failurePolicy else .lenient
      logging := if keep "logging" then c.logging else { enabled := true, level := .info }
      requirements := if keep "structural_requirements" then c.requirements else []
      extra := if keep "extra" then c.extra else [] } : Config) := by
  refine Eq.trans (record?_bind (List.filter_sublist.map _) ?_) ?_
  · exact (by decide : fieldNames.Nodup)
  simp only [Record.default?]
  rw [Record.defaultBy?_only rfl (decode?_encode c.rootMarker),
    Record.defaultBy?_only rfl (decode?_encode c.failurePolicy),
    Record.defaultBy?_only rfl (decode?_encode c.logging),
    Record.defaultBy?_only rfl (decode?_encode c.requirements),
    Record.defaultBy?_only rfl hc.members?_eq_some]
  rfl

theorem decode?_encode {c : Config} (hc : c.extra.Normal) : decode? (encode c) = some c :=
  decode?_only hc fun _ => true

theorem normal_of_decode? {j : Json} {c : Config} (h : decode? j = some c) :
    c.extra.Normal := by
  obtain ⟨_, _, h⟩ := Option.bind_eq_some_iff.1 h
  obtain ⟨_, _, h⟩ := Option.bind_eq_some_iff.1 h
  obtain ⟨_, _, h⟩ := Option.bind_eq_some_iff.1 h
  obtain ⟨_, _, h⟩ := Option.bind_eq_some_iff.1 h
  obtain ⟨_, _, h⟩ := Option.bind_eq_some_iff.1 h
  obtain ⟨_, hextra, h⟩ := Option.bind_eq_some_iff.1 h
  obtain rfl := Option.some.inj h
  obtain rfl | ⟨_, hread⟩ := Record.of_defaultBy? hextra
  · exact Members.normal_nil
  · exact normal_of_members? hread

theorem normal_merge {c other : Config} (hc : c.extra.Normal) (hother : other.extra.Normal) :
    (c.merge other).extra.Normal :=
  hc.setAll hother

/-- What is loaded is valid, and its free-form entries are normal. -/
theorem of_load {path : String} {file : File} {c : Config} (h : load path file = .ok c) :
    c.validate = .ok () ∧ c.extra.Normal := by
  cases file with
  | absent =>
    obtain rfl := Except.ok.inj h
    exact ⟨rfl, Members.normal_nil⟩
  | unreadable => exact nomatch h
  | content bytes =>
    rw [load] at h
    cases hbytes : String.fromUTF8? bytes with
    | none =>
      rw [hbytes] at h
      exact nomatch h
    | some text =>
      rw [hbytes] at h
      dsimp only at h
      cases htext : ofText? text with
      | none =>
        rw [htext] at h
        exact nomatch h
      | some c' =>
        rw [htext] at h
        obtain ⟨⟨⟩, hvalid, h⟩ := bind_eq_ok.1 h
        obtain rfl := pure_eq_ok.1 h
        obtain ⟨_, _, hdecode⟩ := Option.bind_eq_some_iff.1 htext
        exact ⟨hvalid, normal_of_decode? hdecode⟩

end Config

/-! ### Instances -/

namespace Instance

theorem decode?_encode {i : Instance} (hi : i.values.Normal) : decode? (encode i) = some i := by
  refine Eq.trans (record?_bind (.refl _) (by decide)) ?_
  simp [Record.field?, List.lookup_cons, hi.members?_eq_some]

theorem normal_of_decode? {j : Json} {i : Instance} (h : decode? j = some i) :
    i.values.Normal := by
  obtain ⟨_, _, h⟩ := Option.bind_eq_some_iff.1 h
  obtain ⟨_, _, h⟩ := Option.bind_eq_some_iff.1 h
  obtain ⟨_, _, h⟩ := Option.bind_eq_some_iff.1 h
  obtain ⟨_, hvalues, h⟩ := Option.bind_eq_some_iff.1 h
  obtain rfl := Option.some.inj h
  exact normal_of_members? hvalues

theorem normal_set {i : Instance} (hi : i.values.Normal) (name : String) {v : Json}
    (hv : v.Normal) : (i.set name v).values.Normal :=
  Members.Normal.set hi name hv

end Instance

/-! ### All forms -/

/-- Values are decoded from their forms in JSON. What is decoded from any other form is
    decoded again after encoding it. Settings that are left out have their
    defaults, in any combination, and a configuration that is loaded is valid. -/
theorem codecs_roundTrip :
    RoundTrips TypeKey (fun _ => True) ∧ RoundTrips Credential (fun _ => True) ∧
    RoundTrips ValueType (fun _ => True) ∧ RoundTrips Attribute (fun _ => True) ∧
    RoundTrips Requirement (fun _ => True) ∧ RoundTrips Instance (·.values.Normal) ∧
    RoundTrips Violation (fun _ => True) ∧ RoundTrips Outcome (fun _ => True) ∧
    RoundTrips ReadRule (fun _ => True) ∧ RoundTrips TypeAlias (fun _ => True) ∧
    RoundTrips RuleSet (fun _ => True) ∧ RoundTrips LoggingConfig (fun _ => True) ∧
    RoundTrips Config (·.extra.Normal) ∧
    (∀ (c : LoggingConfig) (keep : String → Bool), decode? (only keep (encode c)) = some ({
      enabled := if keep "enabled" then c.enabled else true
      level := if keep "level" then c.level else .info } : LoggingConfig)) ∧
    (∀ c : Config, c.extra.Normal → ∀ keep : String → Bool,
      decode? (only keep (encode c)) = some ({
        rootMarker := if keep "root_marker" then c.rootMarker else "Resource"
        failurePolicy := if keep "failure_policy" then c.failurePolicy else .lenient
        logging := if keep "logging" then c.logging else { enabled := true, level := .info }
        requirements := if keep "structural_requirements" then c.requirements else []
        extra := if keep "extra" then c.extra else [] } : Config)) ∧
    (∀ path file c, Config.load path file = .ok c →
      c.validate = .ok () ∧ decode? (encode c) = some c) ∧
    ∀ c, Config.loadDefault = .ok c → c.validate = .ok () ∧ decode? (encode c) = some c := by
  refine ⟨.of_lawful _, .of_lawful _, .of_lawful _, .of_lawful _, .of_lawful _, ?_,
    .of_lawful _, .of_lawful _, .of_lawful _, .of_lawful _, .of_lawful _, .of_lawful _, ?_,
    LoggingConfig.decode?_only, fun c => Config.decode?_only, fun path file c hc => ?_,
    fun c hc => ?_⟩
  · exact .of_valid (fun i => Instance.decode?_encode) fun j i => Instance.normal_of_decode?
  · exact .of_valid (fun c => Config.decode?_encode) fun j c => Config.normal_of_decode?
  · obtain ⟨hvalid, hextra⟩ := Config.of_load hc
    exact ⟨hvalid, Config.decode?_encode hextra⟩
  · obtain ⟨⟨⟩, hvalid, hc⟩ := bind_eq_ok.1 hc
    obtain rfl := pure_eq_ok.1 hc
    exact ⟨hvalid, Config.decode?_encode Members.normal_nil⟩

/-- A dog of a certain age is decoded from its form. A configuration with some settings
    only is decoded again from the form with all of them. -/
theorem codecs_roundTrip_dog :
    let dog : Instance := ⟨⟨"Dog"⟩, [("age", .int 3), ("coat", .arr [.str "brown", .null])]⟩
    let settings : Json := .obj [
      ("extra", .obj [("b", .int 2), ("a", .int 0), ("a", .int 1)]),
      ("logging", .obj [("level", .obj [("debug", .null)])])]
    dog.values.Normal ∧ decode? (encode dog) = some dog ∧
    ∃ c : Config, decode? settings = some c ∧ c.logging.enabled = true ∧
      c.extra = [("a", .int 1), ("b", .int 2)] ∧ decode? (encode c) = some c := by
  intro dog settings
  obtain ⟨-, -, -, -, -, hinstance, -, -, -, -, -, -, hconfig, -⟩ := codecs_roundTrip
  have hdog : dog.values.Normal := normal_of_members? (j := .obj dog.values) rfl
  obtain ⟨c, hc⟩ : ∃ c : Config, decode? settings = some c := ⟨_, rfl⟩
  refine ⟨hdog, hinstance.decode?_encode dog hdog, c, hc, ?_, ?_, ?_⟩
  · obtain rfl := Option.some.inj hc
    rfl
  · obtain rfl := Option.some.inj hc
    rfl
  · exact (hconfig.encode_decode? settings c hc).2

end Lineage
