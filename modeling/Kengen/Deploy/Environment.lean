import Mathlib

/-!
# Environments of a deployment

`deploy.py` stores the environment of the service as lines `KEY='value'`.  `render_env` writes them,
`parse_env` reads them back, and `merged_environment` reads, adds defaults and writes.

* `splitLines`, `strip`, `replacePair` — `str.splitlines`, `str.strip` and `str.replace`.
* `parseEnv`, `renderEnv`, `mergedEnvironment` — the three functions.
* **`parseLines_render`**, **`noBreaks_of_parseLines`** — what is rendered is read back exactly when no
  value holds a line break.
* **`environments_round_trip`** — so merging an environment that was merged before changes the image
  digest and empty settings only.
* **`separator_splits_value`** — `render_env` refuses three line breaks, `splitlines` knows ten.

A dictionary is the list of its items in insertion order.  `json.loads`, the check of the issuer URL
and the check of the credential files are parameters.
-/

namespace Kengen.Deploy

open List hiding lookup

/-! ### Strings -/

abbrev Text := List Char

def quote : Char := Char.ofNat 0x27

def backslash : Char := Char.ofNat 0x5c

/-- The characters at which `str.splitlines` splits. -/
def isBreak (c : Char) : Bool :=
  c.toNat ∈ [0x0a, 0x0b, 0x0c, 0x0d, 0x1c, 0x1d, 0x1e, 0x85, 0x2028, 0x2029]

/-- `str.isspace`. -/
def isSpace (c : Char) : Bool :=
  isBreak c || c.toNat ∈ [0x09, 0x1f, 0x20, 0xa0, 0x1680, 0x202f, 0x205f, 0x3000] ||
    (0x2000 ≤ c.toNat && c.toNat ≤ 0x200a)

/-- `str.splitlines`, after the characters `line` of a line; `\r\n` is one break. -/
def splitLines (afterCR : Bool) (line : Text) : Text → List Text
  | [] => if line = [] then [] else [line]
  | c :: s =>
    if afterCR && c == '\n' then splitLines false line s
    else if isBreak c then line :: splitLines (c == '\r') [] s
    else splitLines false (line ++ [c]) s

/-- `str.strip`. -/
def strip (s : Text) : Text := rdropWhile isSpace (s.dropWhile isSpace)

/-- `str.replace` of a pair of characters by one. -/
def replacePair (a b c : Char) : Text → Text
  | [] => []
  | [x] => [x]
  | x :: y :: s =>
    if x = a ∧ y = b then c :: replacePair a b c s else x :: replacePair a b c (y :: s)

/-- `value.replace("'", "\\'")`. -/
def escape (value : Text) : Text :=
  value.flatMap fun c => if c = quote then [backslash, quote] else [c]

/-- `[A-Za-z0-9_]`, and for the first character of a key no digit. -/
def isWord (digit : Bool) (c : Char) : Bool :=
  (65 ≤ c.toNat && c.toNat ≤ 90) || (97 ≤ c.toNat && c.toNat ≤ 122) || c.toNat == 95 ||
    (digit && 48 ≤ c.toNat && c.toNat ≤ 57)

/-- `re.fullmatch(r"[A-Za-z_][A-Za-z0-9_]*", key)`. -/
def isKey : Text → Bool
  | [] => false
  | c :: rest => isWord false c && rest.all (isWord true)

/-! ### Reading and writing -/

abbrev Env := List (Text × Text)

def lookup (values : Env) (key : Text) : Option Text :=
  (values.find? fun p => p.1 = key).map Prod.snd

/-- `get` with the empty string for a missing key. -/
def get (values : Env) (key : Text) : Text := (lookup values key).getD []

/-- `values[key] = value`. -/
def set (key value : Text) : Env → Env
  | [] => [(key, value)]
  | p :: rest => if p.1 = key then (key, value) :: rest else p :: set key value rest

variable (loads : Text → Option Text)

/-- The value without its quotes. -/
def unquote (value : Text) : Option Text :=
  if value.head? = some '\x22' then (loads value).map (replacePair '$' '$' '$')
  else if value.head? = some quote ∧ value.getLast? = some quote then
    some (replacePair backslash quote quote (value.drop 1).dropLast)
  else some value

/-- One line of `parse_env` that is neither empty nor a comment. -/
def parseEntry (line : Text) (values : Env) : Except String Env :=
  let key := strip (line.takeWhile (· ≠ '='))
  let rest := line.dropWhile (· ≠ '=')
  if rest = [] ∨ isKey key = false ∨ key ∈ values.map Prod.fst then
    .error "Invalid or duplicate environment key."
  else
    match unquote loads (strip rest.tail) with
    | none => .error "Invalid quoted environment value."
    | some value => .ok (values ++ [(key, value)])

/-- The loop of `parse_env`. -/
def parseLines (values : Env) : List Text → Except String Env
  | [] => .ok values
  | line :: rest =>
    if strip line = [] ∨ (strip line).head? = some '#' then parseLines values rest
    else
      match parseEntry loads (strip line) values with
      | .error e => .error e
      | .ok values => parseLines values rest

/-- `parse_env`. -/
def parseEnv (text : Text) : Except String Env := parseLines loads [] (splitLines false [] text)

def renderEntry (key value : Text) : Text := key ++ '=' :: quote :: (escape value ++ [quote])

/-- `render_env`. -/
def renderEnv : Env → Except String Text
  | [] => .ok []
  | (key, value) :: rest =>
    if isKey key = false then .error "Invalid environment entry."
    else if value.any (fun c => c = '\r' ∨ c = '\n' ∨ c.toNat = 0) then
      .error "Multiline environment values are not supported."
    else (renderEnv rest).map fun text => renderEntry key value ++ '\n' :: text

/-! ### Merging -/

def auth : List Text :=
  ["KENGEN_OIDC_ISSUER".toList, "KENGEN_OIDC_AUDIENCE".toList, "KENGEN_OIDC_SUBJECTS".toList,
    "KENGEN_OIDC_CLIENT_IDS".toList]

def password : Text := "KENGEN_POSTGRES_PASSWORD".toList

def imageDigest : Text := "KENGEN_IMAGE_DIGEST".toList

/-- The settings that have defaults. -/
def settings : List Text := auth ++ [password]

/-- The arguments of `merged_environment`, the generated password and what
`validate_direct_credentials` says. -/
structure Deployment where
  env : Text
  defaults : Env
  image : Text
  preshared : Bool
  token : Text
  credentials : Except String Unit

variable (issuerOK : Text → Bool)

/-- `validate_runtime`. -/
def validateRuntime (values : Env) : Except String Unit :=
  match settings.find? fun key => strip (get values key) = [] with
  | some key => .error ("Missing required setting: " ++ String.ofList key)
  | none =>
    if issuerOK (get values (auth.head (by decide))) = false then
      .error "KENGEN_OIDC_ISSUER must be an HTTPS issuer URL."
    else
      match (auth.drop 2).find? fun key =>
        ((get values key).splitOn ',').any fun part => part = [] ∨ part.any isSpace with
      | some key => .error (String.ofList key ++ " must contain exact values without spaces.")
      | none => .ok ()

/-- One step of the loop that fills in the defaults. -/
def fillDefault (defaults merged : Env) (key : Text) : Env :=
  if get merged key = [] ∧ get defaults key ≠ [] then set key (get defaults key) merged else merged

/-- A first deployment without a password gets a generated one. -/
def withPassword (d : Deployment) (stored filled : Env) : Env :=
  if stored = [] ∧ get filled password = [] then set password d.token filled else filled

/-- The values that `merged_environment` renders. -/
def mergedValues (d : Deployment) : Except String Env := do
  let stored ← parseEnv loads d.env
  if d.preshared then
    d.credentials
    return set imageDigest d.image stored
  else if stored ≠ [] ∧ get stored password = [] then
    .error "Restore the stored database password before deployment."
  else
    let merged := withPassword d stored (settings.foldl (fillDefault d.defaults) stored)
    validateRuntime issuerOK (set imageDigest d.image merged)
    return set imageDigest d.image merged

/-- `merged_environment`. -/
def mergedEnvironment (d : Deployment) : Except String Text :=
  mergedValues loads issuerOK d >>= renderEnv

/-! ### The round trip -/

/-- No value holds a character at which `splitlines` splits. -/
def NoBreaks (values : Env) : Prop := ∀ p ∈ values, ∀ c ∈ p.2, isBreak c = false

theorem isWord_plain {digit : Bool} {c : Char} (h : isWord digit c = true) :
    isSpace c = false ∧ isBreak c = false ∧ c ≠ '=' ∧ c ≠ '#' := by
  have hcode : (65 ≤ c.toNat ∧ c.toNat ≤ 90 ∨ 97 ≤ c.toNat ∧ c.toNat ≤ 122) ∨ c.toNat = 95 ∨
      48 ≤ c.toNat ∧ c.toNat ≤ 57 := by
    simp only [isWord, Bool.or_eq_true, Bool.and_eq_true, decide_eq_true_eq, beq_iff_eq] at h
    tauto
  have hbreak : isBreak c = false := by
    simp [isBreak]
    omega
  refine ⟨?_, hbreak, ?_, ?_⟩
  · simp [isSpace, hbreak]
    omega
  · rintro rfl
    exact absurd hcode (by decide)
  · rintro rfl
    exact absurd hcode (by decide)

/-- **A key** is a first character and others, all of them plain. -/
theorem isKey_cases {key : Text} (h : isKey key = true) :
    ∃ c rest, key = c :: rest ∧ ∀ x ∈ key, ∃ digit, isWord digit x = true := by
  cases key with
  | nil => cases h
  | cons c rest =>
    obtain ⟨hc, hrest⟩ : isWord false c = true ∧ ∀ x ∈ rest, isWord true x = true := by
      simpa [isKey] using h
    exact ⟨c, rest, rfl, forall_mem_cons.2 ⟨⟨_, hc⟩, fun x hx => ⟨_, hrest x hx⟩⟩⟩

theorem strip_append {l e : Text} {x : Char} (hx : isSpace x = false)
    (hl : (l ++ x :: e).dropWhile isSpace = l ++ x :: e) :
    strip (l ++ x :: e) = l ++ x :: rdropWhile isSpace e := by
  rw [strip, hl]
  simp only [rdropWhile, reverse_cons, reverse_append, append_assoc, cons_append, nil_append,
    dropWhile_append]
  split_ifs with hempty
  · simp [isEmpty_iff.1 hempty, hx]
  · simp

theorem dropWhile_key {key : Text} (h : isKey key = true) (l : Text) :
    (key ++ l).dropWhile isSpace = key ++ l := by
  obtain ⟨c, rest, rfl, hplain⟩ := isKey_cases h
  exact dropWhile_cons_of_neg (by simp [(isWord_plain (hplain c mem_cons_self).choose_spec).1])

/-- What is left of a line with a key and an opened quote. -/
theorem strip_line {key : Text} (h : isKey key = true) (e : Text) :
    strip (key ++ '=' :: quote :: e) = key ++ '=' :: quote :: rdropWhile isSpace e := by
  have := strip_append (l := key ++ ['=']) (e := e) (by decide : isSpace quote = false)
    (by rw [append_assoc]; exact dropWhile_key h _)
  simpa using this

theorem strip_quote (e : Text) : strip (quote :: e) = quote :: rdropWhile isSpace e :=
  strip_append (l := []) (by decide) (dropWhile_cons_of_neg (by decide))

/-- **Escaping is undone**: in an escaped value every quote follows its own backslash. -/
theorem replacePair_escape (value : Text) :
    replacePair backslash quote quote (escape value) = value := by
  have hhead : ∀ value, (escape value).head? ≠ some quote := by
    rintro (_ | ⟨c, value⟩)
    · nofun
    · by_cases hc : c = quote
      · simp [escape, hc, show backslash ≠ quote by decide]
      · simp [escape, hc]
  induction value with
  | nil => rfl
  | cons c value ih =>
    by_cases hc : c = quote
    · have hescape : escape (c :: value) = backslash :: quote :: escape value := by simp [escape, hc]
      rw [hescape, replacePair, if_pos ⟨rfl, rfl⟩, ih, hc]
    · have hescape : escape (c :: value) = c :: escape value := by simp [escape, hc]
      rw [hescape]
      cases h : escape value with
      | nil => simpa [h, replacePair] using ih
      | cons y =>
        have hy : y ≠ quote := fun hy => hhead value (by rw [h, hy]; rfl)
        rw [replacePair, if_neg fun hpair => hy hpair.2, ← h, ih]

theorem splitLines_line {l : Text} (hl : ∀ c ∈ l, isBreak c = false) {b : Char}
    (hb : isBreak b = true) (line rest : Text) :
    splitLines false line (l ++ b :: rest) = (line ++ l) :: splitLines (b == '\r') [] rest := by
  induction l generalizing line with
  | nil => simp [splitLines, hb]
  | cons c l ih =>
    obtain ⟨hc, hl⟩ := forall_mem_cons.1 hl
    simp [splitLines, hc, ih hl]

/-- The key of a line, and what is left for its value. -/
theorem parseEntry_eq {key : Text} (hkey : isKey key = true) (value : Text) (values : Env) :
    parseEntry loads (key ++ '=' :: value) values =
      if key ∈ values.map Prod.fst then .error "Invalid or duplicate environment key."
      else
        match unquote loads (strip value) with
        | none => .error "Invalid quoted environment value."
        | some value => .ok (values ++ [(key, value)]) := by
  obtain ⟨c, _, -, hplain⟩ := isKey_cases hkey
  have hne : ∀ x ∈ key, decide (x ≠ '=') = true := fun x hx =>
    decide_eq_true (isWord_plain (hplain x hx).choose_spec).2.2.1
  have hstrip : strip key = key := by
    rw [strip, dropWhile_eq_self_iff.2, rdropWhile_eq_self_iff.2]
    · exact fun h => by simp [(isWord_plain (hplain _ (getLast_mem h)).choose_spec).1]
    · exact fun h => by simp [(isWord_plain (hplain _ (getElem_mem h)).choose_spec).1]
  have htake : (key ++ '=' :: value).takeWhile (· ≠ '=') = key := by
    rw [takeWhile_append_of_pos hne, takeWhile_cons_of_neg (by decide), append_nil]
  have hdrop : (key ++ '=' :: value).dropWhile (· ≠ '=') = '=' :: value := by
    rw [dropWhile_append_of_pos hne, dropWhile_cons_of_neg (by decide)]
  rw [parseEntry, htake, hdrop, hstrip, tail_cons]
  by_cases hmem : key ∈ values.map Prod.fst
  · rw [if_pos (.inr (.inr hmem)), if_pos hmem]
  · rw [if_neg (by simp [hkey, hmem]), if_neg hmem]

/-- **One line is read back.** -/
theorem parseEntry_render {key value : Text} {values : Env} (hkey : isKey key = true)
    (hnew : key ∉ values.map Prod.fst) :
    parseEntry loads (renderEntry key value) values = .ok (values ++ [(key, value)]) := by
  have hunquote : unquote loads (quote :: (escape value ++ [quote])) = some value := by
    simp [unquote, replacePair_escape, getLast?_cons, show quote ≠ '\x22' by decide]
  have hend : rdropWhile isSpace (escape value ++ [quote]) = escape value ++ [quote] :=
    rdropWhile_concat_neg _ _ _ (by decide)
  rw [renderEntry, parseEntry_eq loads hkey, if_neg hnew, strip_quote, hend, hunquote]

theorem renderEnv_cons {key value text : Text} {v : Env}
    (h : renderEnv ((key, value) :: v) = .ok text) : isKey key = true ∧
      ∃ t, renderEnv v = .ok t ∧ text = renderEntry key value ++ '\n' :: t := by
  rw [renderEnv] at h
  split_ifs at h with hkey hline
  refine ⟨by simpa using hkey, ?_⟩
  cases hv : renderEnv v with
  | error => simp [hv, Except.map] at h
  | ok t => exact ⟨t, rfl, by simpa [hv, Except.map] using h.symm⟩

/-- The loop at a line that starts with a key. -/
theorem parseLines_key {key line value : Text} (hkey : isKey key = true)
    (hline : strip line = key ++ '=' :: value) (values : Env)
    (lines : List Text) : parseLines loads values (line :: lines) =
      match parseEntry loads (strip line) values with
      | .error e => .error e
      | .ok values => parseLines loads values lines := by
  obtain ⟨c, rest, rfl, hplain⟩ := isKey_cases hkey
  obtain ⟨-, -, -, hhash⟩ := isWord_plain (hplain c mem_cons_self).choose_spec
  rw [parseLines, if_neg]
  rw [hline]
  simp [hhash]

/-- **A rendered line is read back**, and the rest behind it. -/
theorem parseLines_entry {key value : Text} {values : Env} (hkey : isKey key = true)
    (hnew : key ∉ values.map Prod.fst) (hvalue : ∀ c ∈ value, isBreak c = false) (text : Text) :
    parseLines loads values (splitLines false [] (renderEntry key value ++ '\n' :: text)) =
      parseLines loads (values ++ [(key, value)]) (splitLines false [] text) := by
  obtain ⟨_, _, -, hplain⟩ := isKey_cases hkey
  have hstrip : strip (renderEntry key value) = renderEntry key value := by
    rw [renderEntry, strip_line hkey, rdropWhile_concat_neg _ _ _ (by decide)]
  have hentry : ∀ x ∈ renderEntry key value, isBreak x = false := by
    intro x hx
    simp only [renderEntry, escape, mem_append, mem_cons, mem_flatMap, not_mem_nil, or_false] at hx
    rcases hx with hx | rfl | rfl | ⟨y, hy, hx⟩ | rfl
    · exact (isWord_plain (hplain x hx).choose_spec).2.1
    · decide
    · decide
    · split_ifs at hx with hquote
      · rcases mem_cons.1 hx with rfl | hx
        · decide
        · exact mem_singleton.1 hx ▸ by decide
      · exact mem_singleton.1 hx ▸ hvalue y hy
    · decide
  rw [splitLines_line hentry (by decide), nil_append,
    parseLines_key loads hkey hstrip, hstrip,
    parseEntry_render loads hkey hnew]
  rfl

/-- **A rendered environment is read back**, after the values read before. -/
theorem parseLines_render (values : Env) {v : Env} {text : Text} (hbreaks : NoBreaks v)
    (hkeys : ((values ++ v).map Prod.fst).Nodup) (h : renderEnv v = .ok text) :
    parseLines loads values (splitLines false [] text) = .ok (values ++ v) := by
  induction v generalizing values text with
  | nil =>
    cases h
    simp [splitLines, parseLines]
  | cons p v ih =>
    obtain ⟨hkey, text, htext, rfl⟩ := renderEnv_cons h
    obtain ⟨hvalue, htail⟩ := forall_mem_cons.1 hbreaks
    have hnew : p.1 ∉ values.map Prod.fst := by
      rw [map_append, map_cons, nodup_append] at hkeys
      exact fun hmem => hkeys.2.2 _ hmem _ mem_cons_self rfl
    rw [parseLines_entry loads hkey hnew hvalue]
    simpa using ih (values ++ [p]) htail (by simpa using hkeys) htext

/-! ### A value with a line break -/

/-- Reading adds entries behind those read before. -/
theorem parseLines_extends {values result : Env} {lines : List Text}
    (h : parseLines loads values lines = .ok result) : values <+: result := by
  induction lines generalizing values with
  | nil =>
    cases h
    exact prefix_rfl
  | cons line rest ih =>
    rw [parseLines] at h
    split_ifs at h
    · exact ih h
    · split at h
      · cases h
      rename_i hentry
      rw [parseEntry] at hentry
      split_ifs at hentry
      split at hentry
      · cases hentry
      · cases hentry
        exact (prefix_append _ _).trans (ih h)

theorem mem_replacePair {a b q c : Char} {s : Text} (h : c ∈ replacePair a b q s) :
    c = q ∨ c ∈ s := by
  induction s using replacePair.induct a b with
  | case1 => exact .inr h
  | case2 => exact .inr h
  | case3 x y s hxy ih =>
    rw [replacePair, if_pos hxy] at h
    rcases mem_cons.1 h with rfl | h
    · exact .inl rfl
    · exact (ih h).imp_right fun h => mem_cons_of_mem _ (mem_cons_of_mem _ h)
  | case4 x y s hxy ih =>
    rw [replacePair, if_neg hxy] at h
    rcases mem_cons.1 h with rfl | h
    · exact .inr mem_cons_self
    · exact (ih h).imp_right (mem_cons_of_mem _)

/-- A line that breaks off inside a value gives a value without breaks. -/
theorem parseEntry_broken {key e : Text} {values result : Env} (hkey : isKey key = true)
    (he : ∀ c ∈ e, isBreak c = false)
    (h : parseEntry loads (key ++ '=' :: quote :: e) values = .ok result) :
    ∃ value, result = values ++ [(key, value)] ∧ ∀ c ∈ value, isBreak c = false := by
  rw [parseEntry_eq loads hkey] at h
  split_ifs at h
  split at h
  · cases h
  rename_i value hunquote
  cases h
  refine ⟨value, rfl, fun c hc => ?_⟩
  have hbefore : ∀ c ∈ quote :: rdropWhile isSpace e, isBreak c = false := by
    refine forall_mem_cons.2 ⟨by decide, fun c hc => he c ?_⟩
    exact ( rdropWhile_prefix _ _).subset hc
  rw [strip_quote, unquote, if_neg (by simp [show quote ≠ '\x22' by decide])] at hunquote
  split_ifs at hunquote
  · cases hunquote
    rcases mem_replacePair hc with rfl | hc
    · decide
    · exact hbefore c (mem_of_mem_drop (mem_of_mem_dropLast hc))
  · cases hunquote
    exact hbefore c hc

/-- The first break of a value, where it is rendered. -/
theorem exists_break {value : Text} (h : ¬ ∀ c ∈ value, isBreak c = false) :
    ∃ e b z, escape value = e ++ b :: z ∧ (∀ c ∈ e, isBreak c = false) ∧ isBreak b = true := by
  push Not at h
  obtain ⟨c, hc, hbreak⟩ := h
  have hquote : c ≠ quote := by
    rintro rfl
    exact hbreak (by decide)
  have hmem : c ∈ escape value := mem_flatMap.2 ⟨c, hc, by simp [hquote]⟩
  have hsome : ((escape value).find? isBreak).isSome = true :=
    find?_isSome.2 ⟨c, hmem, by simpa using hbreak⟩
  obtain ⟨b, hfind⟩ := Option.isSome_iff_exists.1 hsome
  obtain ⟨hb, e, z, hescape, he⟩ := find?_eq_some_iff_append.1 hfind
  exact ⟨e, b, z, hescape, fun c hc => by simpa using he c hc, hb⟩

/-- **An environment that is read back has no line breaks.** -/
theorem noBreaks_of_parseLines (values : Env) {v : Env} {text : Text}
    (hkeys : ((values ++ v).map Prod.fst).Nodup) (h : renderEnv v = .ok text)
    (hparse : parseLines loads values (splitLines false [] text) = .ok (values ++ v)) :
    NoBreaks v := by
  induction v generalizing values text with
  | nil => exact forall_mem_nil _
  | cons p v ih =>
    obtain ⟨key, value⟩ := p
    obtain ⟨hkey, text, htext, rfl⟩ := renderEnv_cons h
    have hnew : key ∉ values.map Prod.fst := by
      rw [map_append, map_cons, nodup_append] at hkeys
      exact fun hmem => hkeys.2.2 _ hmem _ mem_cons_self rfl
    by_cases hvalue : ∀ c ∈ value, isBreak c = false
    · rw [parseLines_entry loads hkey hnew hvalue] at hparse
      refine forall_mem_cons.2 ⟨hvalue, ih (values ++ [(key, value)]) ?_ htext ?_⟩
      · simpa using hkeys
      · simpa using hparse
    · -- the first line ends at the first break, and the value that is read has none
      exfalso
      obtain ⟨_, _, -, hplain⟩ := isKey_cases hkey
      obtain ⟨e, b, z, hescape, he, hb⟩ := exists_break hvalue
      have hline : ∀ x ∈ key ++ '=' :: quote :: e, isBreak x = false := by
        intro x hx
        simp only [mem_append, mem_cons] at hx
        rcases hx with hx | rfl | rfl | hx
        · exact (isWord_plain (hplain x hx).choose_spec).2.1
        · decide
        · decide
        · exact he x hx
      have hrender : renderEntry key value ++ '\n' :: text =
          (key ++ '=' :: quote :: e) ++ b :: (z ++ quote :: '\n' :: text) := by
        simp [renderEntry, hescape]
      rw [hrender, splitLines_line hline hb, nil_append,
        parseLines_key loads hkey (strip_line hkey e), strip_line hkey e] at hparse
      split at hparse
      · cases hparse
      rename_i hentry
      obtain ⟨value', rfl, hvalue'⟩ := parseEntry_broken loads hkey
        (fun x hx => he x (( rdropWhile_prefix _ _).subset hx)) hentry
      obtain ⟨more, hmore⟩ := parseLines_extends loads hparse
      simp only [append_assoc, append_cancel_left_eq, cons_append, nil_append, cons.injEq,
        Prod.mk.injEq, true_and] at hmore
      exact hvalue (hmore.1 ▸ hvalue')

/-! ### Merging again -/

theorem lookup_set (key value key' : Text) (values : Env) :
    lookup (set key value values) key' = if key' = key then some value else lookup values key' := by
  simp only [lookup]
  induction values with
  | nil => by_cases h : key = key' <;> simp [set, h, eq_comm]
  | cons p rest ih =>
    by_cases hp : p.1 = key
    · by_cases h : key = key'
      · simp [set, hp, h]
      · simp [set, hp, h, Ne.symm h]
    · by_cases h : p.1 = key'
      · simp [set, h, h ▸ hp]
      · simp [set, hp, h, ih]

theorem keys_set (key value : Text) (values : Env) :
    (set key value values).map Prod.fst =
      if key ∈ values.map Prod.fst then values.map Prod.fst else values.map Prod.fst ++ [key] := by
  induction values with
  | nil => rfl
  | cons p rest ih =>
    by_cases hp : p.1 = key
    · simp [set, hp]
    · by_cases h : key ∈ rest.map Prod.fst <;> simp [set, hp, Ne.symm hp, ih, h]

theorem nodup_set {values : Env} (h : (values.map Prod.fst).Nodup) (key value : Text) :
    ((set key value values).map Prod.fst).Nodup := by
  rw [keys_set]
  split_ifs with hmem
  · exact h
  · exact nodup_append.2 ⟨h, nodup_singleton _, fun _ hx _ hy =>
      fun heq => hmem (mem_singleton.1 hy ▸ heq ▸ hx)⟩

theorem set_ne_nil (key value : Text) (values : Env) : set key value values ≠ [] := by
  intro h
  have hlookup := lookup_set key value key values
  rw [h, if_pos rfl] at hlookup
  cases hlookup

/-- The keys that are read are different. -/
theorem parseLines_keys (values : Env) {lines : List Text} {result : Env}
    (hkeys : (values.map Prod.fst).Nodup) (h : parseLines loads values lines = .ok result) :
    (result.map Prod.fst).Nodup := by
  induction lines generalizing values with
  | nil =>
    cases h
    exact hkeys
  | cons line rest ih =>
    rw [parseLines] at h
    split_ifs at h
    · exact ih values hkeys h
    · split at h
      · cases h
      · rename_i values' hentry
        refine ih values' ?_ h
        rw [parseEntry] at hentry
        split_ifs at hentry with hnew
        split at hentry
        · cases hentry
        cases hentry
        rw [map_append]
        exact hkeys.append (nodup_singleton _) (by simpa using fun h => hnew (.inr (.inr h)))

/-- A setting is as it was stored, or it was empty and is the default. -/
def Kept (defaults stored merged : Env) (key : Text) : Prop :=
  lookup merged key = lookup stored key ∨
    key ∈ settings ∧ get stored key = [] ∧ lookup merged key = lookup defaults key

/-- **The loop over the settings** fills in defaults and nothing else. -/
theorem foldl_fillDefault {defaults stored merged : Env} {keys : List Text} (hkeys : keys ⊆ settings)
    (hkept : ∀ key, Kept defaults stored merged key) (h : (merged.map Prod.fst).Nodup) :
    (∀ key, Kept defaults stored (keys.foldl (fillDefault defaults) merged) key) ∧
      ((keys.foldl (fillDefault defaults) merged).map Prod.fst).Nodup := by
  induction keys generalizing merged with
  | nil => exact ⟨hkept, h⟩
  | cons key keys ih =>
    obtain ⟨hkey, hkeys⟩ := cons_subset.1 hkeys
    rw [foldl_cons, fillDefault]
    split_ifs with hempty
    · refine ih hkeys (fun key' => ?_) (nodup_set h key _)
      rw [Kept, lookup_set]
      split_ifs with heq
      · subst heq
        have hdefault : lookup defaults key' = some (get defaults key') := by
          cases hlookup : lookup defaults key' with
          | none => exact absurd (by simp [get, hlookup]) hempty.2
          | some => simp [get, hlookup]
        rcases hkept key' with hsame | ⟨-, hstored, -⟩
        · exact .inr ⟨hkey, by rw [get, ← hsame]; exact hempty.1, hdefault.symm⟩
        · exact .inr ⟨hkey, hstored, hdefault.symm⟩
      · exact hkept key'
    · exact ih hkeys hkept h

theorem ok_of_bind {α β : Type} {x : Except String α} {f : α → Except String β} {b : β}
    (h : (x >>= f) = .ok b) : ∃ a, x = .ok a ∧ f a = .ok b := by
  cases x with
  | error => cases h
  | ok a => exact ⟨a, rfl, h⟩

/-- **What `merged_environment` renders**: the stored values, with defaults and the digest. -/
theorem mergedValues_spec {d : Deployment} {written : Env}
    (h : mergedValues loads issuerOK d = .ok written) :
    ∃ stored, parseEnv loads d.env = .ok stored ∧ (written.map Prod.fst).Nodup ∧ written ≠ [] ∧
      (stored ≠ [] → ∀ key ≠ imageDigest, Kept d.defaults stored written key) := by
  obtain ⟨stored, hparse, h⟩ := ok_of_bind h
  have hkeys := parseLines_keys loads [] nodup_nil hparse
  refine ⟨stored, hparse, ?_⟩
  split_ifs at h with hmode hrestore
  · obtain ⟨-, -, h⟩ := ok_of_bind h
    cases h
    refine ⟨nodup_set hkeys _ _, set_ne_nil _ _ _, fun _ key hkey => .inl ?_⟩
    rw [lookup_set, if_neg hkey]
  · obtain ⟨-, -, h⟩ := ok_of_bind h
    cases h
    obtain ⟨hkept, hnodup⟩ := foldl_fillDefault (Subset.refl settings)
      (fun _ => .inl rfl : ∀ key, Kept d.defaults stored stored key) hkeys
    rw [withPassword]
    split_ifs with hfirst
    · exact ⟨nodup_set (nodup_set hnodup _ _) _ _, set_ne_nil _ _ _, fun hne => absurd hfirst.1 hne⟩
    · refine ⟨nodup_set hnodup _ _, set_ne_nil _ _ _, fun _ key hkey => ?_⟩
      rw [Kept, lookup_set, if_neg hkey]
      exact hkept key

/-- **Environments survive a round trip if and only if** no value holds a line break.  Then merging
what was merged before changes the image digest and empty settings only. -/
theorem environments_round_trip :
    (∀ v text, (v.map Prod.fst).Nodup → renderEnv v = .ok text →
        (parseEnv loads text = .ok v ↔ NoBreaks v)) ∧
      ∀ first written output, mergedValues loads issuerOK first = .ok written →
        renderEnv written = .ok output →
        ((parseEnv loads output = .ok written ∧
            ∀ second written', second.env = output →
              mergedValues loads issuerOK second = .ok written' →
              ∀ key ≠ imageDigest, Kept second.defaults written written' key) ↔
          NoBreaks written) := by
  have hround : ∀ v text, (v.map Prod.fst).Nodup → renderEnv v = .ok text →
      (parseEnv loads text = .ok v ↔ NoBreaks v) := fun v text hkeys h =>
    ⟨noBreaks_of_parseLines loads [] hkeys h, fun hbreaks => parseLines_render loads [] hbreaks hkeys h⟩
  refine ⟨hround, fun first written output hwritten hrender => ?_⟩
  obtain ⟨_, -, hkeys, hne, -⟩ := mergedValues_spec loads issuerOK hwritten
  rw [← hround written output hkeys hrender]
  refine ⟨fun h => h.1, fun hparse => ⟨hparse, ?_⟩⟩
  rintro second written' rfl hwritten' key hkey
  obtain ⟨stored, hstored, -, -, hkept⟩ := mergedValues_spec loads issuerOK hwritten'
  cases hstored.symm.trans hparse
  exact hkept hne key hkey

/-- A first deployment, which stores the defaults, a password with a quote and the digest. -/
def firstDeployment : Deployment where
  env := []
  defaults := auth.map fun key => (key, "x".toList)
  image := "i".toList
  preshared := false
  token := "it's".toList
  credentials := .ok ()

/-- What it renders is read back, and a later one keeps the password. -/
theorem environments_round_trip_quote :
    ∃ written output, mergedValues (fun _ => none) (fun _ => true) firstDeployment = .ok written ∧
      renderEnv written = .ok output ∧ parseEnv (fun _ => none) output = .ok written ∧
      ∀ second written', second.env = output →
        mergedValues (fun _ => none) (fun _ => true) second = .ok written' →
        lookup written' password = some "it's".toList := by
  obtain ⟨-, hmerged⟩ := environments_round_trip (fun _ => none) (fun _ => true)
  have hwritten : mergedValues (fun _ => none) (fun _ => true) firstDeployment =
      .ok (auth.map (fun key => (key, "x".toList)) ++
        [(password, "it's".toList), (imageDigest, "i".toList)]) := by
    decide
  refine ⟨_, _, hwritten, rfl, ?_⟩
  obtain ⟨hparse, hagain⟩ := (hmerged firstDeployment _ _ hwritten rfl).2
    (by simp [NoBreaks, auth, isBreak])
  refine ⟨hparse, fun second written' henv hsecond => ?_⟩
  rcases hagain second written' henv hsecond password (by decide) with hkept | ⟨-, hempty, -⟩
  · exact hkept
  · exact absurd hempty (by decide)

/-- **A separator splits a value.**  The line separator `U+2028` is rendered inside the quotes, and
read back it ends the line: `A` changes and `B` is added. -/
theorem separator_splits_value :
    ∃ text, renderEnv [("A".toList, "x\u2028B=y".toList)] = .ok text ∧
      parseEnv (fun _ => none) text =
        .ok [("A".toList, "'x".toList), ("B".toList, "y'".toList)] :=
  ⟨_, rfl, by decide⟩

end Kengen.Deploy
