import Esmetrics.Auth.Path
import Esmetrics.Auth.QueryArgs
import Esmetrics.Http.Request

/-!
# Target URLs

Model of `build_target_url` in `esm-auth/src/route.rs`, of the checks of a `url_prefix` in
`esm-auth/src/config.rs`, and of how `Proxy::proxy` calls it: the decoded path of the request is
cleaned, cut and put as text behind the backend's path, and the merged arguments behind that.

The path is decoded before it becomes text of a URL, so a character of it can end the path there.
The target keeps the path and the arguments that the backend enforces exactly when the text has no
question mark and no number sign and its dot segments do not climb above its start (`enforced_iff`).
-/

namespace Esmetrics.Auth

open List

open Http UrlSyntax

set_option maxRecDepth 4000

/-! ### The backends of a config -/

inductive UrlPrefixError where
  | empty (field : Bytes)
  | unmarshal (url : Bytes)
  | unsupportedScheme (field url scheme : Bytes)
  | missingHostname (field url : Bytes)
deriving DecidableEq

/-- The authority is empty, or there is none behind the scheme. -/
def rawAuthorityIsEmpty (raw scheme : Bytes) : Bool :=
  let schemeMatches := Protoparser.eqIgnoreAsciiCase (raw.take scheme.length) scheme
  if !schemeMatches || (raw.drop scheme.length).take 3 ≠ ascii "://" then true
  else ((raw.drop (scheme.length + 3)).takeWhile (· ∉ ascii "/?#")).isEmpty

/-- Checks a URL of a backend, of which the URL parser gives the scheme and the host. -/
def validateUrl (parse : Bytes → Option (Bytes × Option Bytes)) (field url : Bytes) :
    Except UrlPrefixError Unit :=
  match parse url with
  | none => .error (.unmarshal url)
  | some (scheme, host) =>
    if scheme ≠ ascii "http" ∧ scheme ≠ ascii "https" then
      .error (.unsupportedScheme field url scheme)
    else if rawAuthorityIsEmpty url scheme then .error (.missingHostname field url)
    else if host.getD [] = [] then .error (.missingHostname field url)
    else .ok ()

/-- Checks the URLs of a backend. -/
def validateUrlPrefix (parse : Bytes → Option (Bytes × Option Bytes)) (field : Bytes)
    (urls : List Bytes) : Except UrlPrefixError Unit :=
  if urls = [] then .error (.empty field) else urls.forM (validateUrl parse field)

/-! ### The target -/

/-- The text before the first question mark, and the query behind it. -/
def splitQuery (url : Bytes) : Bytes × Bytes := (splitOnce '?'.toUInt8 url).getD (url, [])

/-- The URL with a query string, unless this is empty. -/
def withQuery (base query : Bytes) : Bytes :=
  if query = [] then base else base ++ '?'.toUInt8 :: query

/-- The URL that a request is sent to. -/
def buildTargetUrl (urlPrefix reqPath reqQuery : Bytes) (dropParts : ℕ)
    (mergeQueryArgs : List Bytes) (isDefault : Bool) (fullRequestUri : Bytes) : Bytes :=
  let (base, targetQuery) := splitQuery urlPrefix
  if isDefault then
    base ++ '?'.toUInt8 ::
      encodeMultimap ((decodeMultimap targetQuery).insert (ascii "request_path") [fullRequestUri])
  else
    let srcPath := dropPrefixParts reqPath dropParts
    let base :=
      if srcPath.head? = some '/'.toUInt8 ∧ base.getLast? = some '/'.toUInt8 then base.dropLast
      else base
    let base := base ++ srcPath
    if parseQuery reqQuery = [] then withQuery base targetQuery
    else withQuery base (encodeMultimap (mergeQuery targetQuery reqQuery mergeQueryArgs))

/-- The URL that the proxy sends a request to. -/
def proxyTarget (urlPrefix : Bytes) (head : Head) (dropParts : ℕ) (mergeQueryArgs : List Bytes)
    (isDefault : Bool) : Bytes :=
  let path := normalizePath head.path
  let fullRequestUri := withQuery path head.query
  buildTargetUrl urlPrefix path head.query dropParts mergeQueryArgs isDefault fullRequestUri

example : buildTargetUrl (ascii "https://backend/foo/bar/?password=abc") (ascii "/x/y")
    (ascii "password=hack&qqq=www") 0 [] false [] =
    ascii "https://backend/foo/bar/x/y?password=abc&qqq=www" := by decide

/-! ### What a backend enforces -/

/-- The target has the path and the arguments that the backend enforces: its path starts with the
backend's, the keys of the backend have the values of the backend, with those of the client behind
them where the key is listed, and the other keys have the values of the client. -/
structure Enforced (urlPrefix url clientQuery : Bytes) (mergeQueryArgs : List Bytes) : Prop where
  path : resolvePath (path urlPrefix) <+: resolvePath (path url)
  enforced : ∀ key ∈ (parseQuery (query urlPrefix)).map (·.1), key ∉ mergeQueryArgs →
    valuesOf key (parseQuery (query url)) = valuesOf key (parseQuery (query urlPrefix))
  listed : ∀ key ∈ (parseQuery (query urlPrefix)).map (·.1), key ∈ mergeQueryArgs →
    valuesOf key (parseQuery (query url)) =
      valuesOf key (parseQuery (query urlPrefix)) ++ valuesOf key (parseQuery clientQuery)
  client : ∀ key, key ∉ (parseQuery (query urlPrefix)).map (·.1) →
    valuesOf key (parseQuery (query url)) = valuesOf key (parseQuery clientQuery)

/-- The target of the request keeps what each backend of a valid config enforces, where its URL has
no fragment. -/
def AlwaysEnforced (parse : Bytes → Option (Bytes × Option Bytes)) (head : Head) (dropParts : ℕ) :
    Prop :=
  ∀ field urls urlPrefix mergeQueryArgs, validateUrlPrefix parse field urls = .ok () →
    urlPrefix ∈ urls → isValidUtf8 urlPrefix = true → '#'.toUInt8 ∉ urlPrefix →
    Enforced urlPrefix (proxyTarget urlPrefix head dropParts mergeQueryArgs false) head.query
      mergeQueryArgs

/-- The text is only a path behind another one, and stays below it. -/
def StaysBelow (s : Bytes) : Prop :=
  '?'.toUInt8 ∉ s ∧ '#'.toUInt8 ∉ s ∧ climbs 0 (segments s) = false

/-! ### The parts of a backend's URL -/

/-- The text is a scheme and an authority. -/
structure IsOrigin (origin : Bytes) : Prop where
  after : ∀ rest : Bytes, (∀ c ∈ rest.head?, c ∈ ascii "/?#") →
    afterAuthority (origin ++ rest) = rest
  noDelimiter : ∀ c ∈ origin, c ∉ ascii "?#"
  last : origin.getLast? ≠ some '/'.toUInt8

variable {url field origin p q urlPrefix s clientQuery : Bytes}
  {parse : Bytes → Option (Bytes × Option Bytes)} {urls : List Bytes} {dropParts : ℕ}

/-- A URL with an authority starts with it. -/
theorem exists_origin {scheme : Bytes} (hscheme : scheme = ascii "http" ∨ scheme = ascii "https")
    (h : rawAuthorityIsEmpty url scheme = false) :
    ∃ origin rest, url = origin ++ rest ∧ IsOrigin origin ∧ ∀ c ∈ rest.head?, c ∈ ascii "/?#" := by
  rw [rawAuthorityIsEmpty] at h
  split_ifs at h with hstart
  rw [Bool.or_eq_true, not_or, Bool.not_eq_true', Bool.not_eq_false, decide_eq_true_iff,
    not_not] at hstart
  obtain ⟨hmatches, hsep⟩ := hstart
  have hne : (url.drop (scheme.length + 3)).takeWhile (· ∉ ascii "/?#") ≠ [] := by
    rw [ne_eq, ← List.isEmpty_iff]
    exact Bool.eq_false_iff.mp h
  have hletters : ∀ c ∈ url.take scheme.length, c ∉ ascii ":/?#" := by
    have hlower : ∀ c : UInt8, Protoparser.toAsciiLowercase c ∈ ascii "https" →
        c ∉ ascii ":/?#" := by
      decide
    have hsub : scheme.map Protoparser.toAsciiLowercase ⊆ ascii "https" := by
      obtain rfl | rfl := hscheme <;> decide
    refine fun c hc => hlower c (hsub ?_)
    rw [← of_decide_eq_true hmatches]
    exact mem_map_of_mem hc
  have hauthority : ∀ c ∈ (url.drop (scheme.length + 3)).takeWhile (· ∉ ascii "/?#"),
      c ∉ ascii "/?#" := fun c hc =>
      of_decide_eq_true (mem_takeWhile_imp (p := (· ∉ ascii "/?#")) hc)
  have hsmaller : ∀ c ∈ ascii "?#", c ∈ ascii ":/?#" ∧ c ∈ ascii "/?#" ∧ c ∉ ascii "://" := by
    decide
  refine ⟨url.take scheme.length ++ ascii "://" ++
      (url.drop (scheme.length + 3)).takeWhile (· ∉ ascii "/?#"),
    (url.drop (scheme.length + 3)).dropWhile (· ∉ ascii "/?#"), ?_, ⟨?_, ?_, ?_⟩, ?_⟩
  · rw [append_assoc, takeWhile_append_dropWhile, ← hsep, ← drop_drop,
      append_assoc, take_append_drop, take_append_drop]
  · exact fun rest hrest => afterAuthority_append
      (fun hmem => hletters _ hmem (by decide)) hauthority hrest
  · intro c hc hdelim
    obtain ⟨hfirst, hsecond, hthird⟩ := hsmaller c hdelim
    rw [mem_append, mem_append] at hc
    obtain (hc | hc) | hc := hc
    · exact hletters c hc hfirst
    · exact hthird hc
    · exact hauthority c hc hsecond
  · rw [getLast?_append, getLast?_eq_some_getLast hne, Option.some_or]
    intro heq
    exact hauthority _ (getLast_mem hne) (Option.some.inj heq ▸ by decide)
  · intro c hc
    have hhead := head?_dropWhile_not (· ∉ ascii "/?#") (url.drop (scheme.length + 3))
    rw [Option.mem_def.mp hc] at hhead
    simpa using hhead

theorem validateUrl_of_mem (h : urls.forM (validateUrl parse field) = .ok ()) (hurl : url ∈ urls) :
    validateUrl parse field url = .ok () := by
  induction urls with
  | nil => cases hurl
  | cons first urls ih =>
    change (validateUrl parse field first >>= fun _ => urls.forM _) = _ at h
    cases hfirst : validateUrl parse field first with
    | error e =>
      rw [hfirst] at h
      cases h
    | ok u =>
      rw [hfirst] at h
      obtain rfl | hurl := mem_cons.mp hurl
      · exact hfirst
      · exact ih h hurl

theorem exists_origin_of_validate (h : validateUrlPrefix parse field urls = .ok ())
    (hurl : url ∈ urls) :
    ∃ origin rest, url = origin ++ rest ∧ IsOrigin origin ∧ ∀ c ∈ rest.head?, c ∈ ascii "/?#" := by
  rw [validateUrlPrefix, if_neg (ne_nil_of_mem hurl)] at h
  have hvalid := validateUrl_of_mem h hurl
  rw [validateUrl] at hvalid
  split at hvalid
  · cases hvalid
  · rename_i scheme host _
    split_ifs at hvalid with hscheme hauthority
    rw [not_and_or, not_not, not_not] at hscheme
    exact exists_origin hscheme (Bool.not_eq_true _ ▸ hauthority)

/-- The path and the query of a backend's URL. -/
structure IsParts (urlPrefix origin p q : Bytes) : Prop where
  isOrigin : IsOrigin origin
  head : p = [] ∨ p.head? = some '/'.toUInt8
  noDelimiter : ∀ c ∈ p, c ∉ ascii "?#"
  noFragment : '#'.toUInt8 ∉ q
  split : splitQuery urlPrefix = (origin ++ p, q)
  path : path urlPrefix = p
  query : query urlPrefix = q

theorem IsOrigin.isParts (h : IsOrigin origin) (hhead : p = [] ∨ p.head? = some '/'.toUInt8)
    (hp : ∀ c ∈ p, c ∉ ascii "?#") :
    IsParts (origin ++ p) origin p [] := by
  have hafter : afterAuthority (origin ++ p) = p ++ [] := by
    rw [append_nil]
    refine h.after p fun c hc => ?_
    obtain rfl | hhead := hhead
    · cases hc
    · rw [Option.mem_def, hhead] at hc
      exact Option.some.inj hc ▸ by decide
  have hmark : '?'.toUInt8 ∉ origin ++ p := by
    rw [mem_append]
    rintro (hmem | hmem)
    · exact h.noDelimiter _ hmem isDelimiter.1
    · exact hp _ hmem isDelimiter.1
  refine ⟨h, hhead, hp, not_mem_nil, ?_, path_eq hafter hp (fun c hc => nomatch hc),
    query_eq_nil hafter hp (fun c hc => nomatch hc)⟩
  rw [splitQuery, splitOnce_eq_none hmark, Option.getD_none]

theorem IsOrigin.isParts_query (h : IsOrigin origin) (hhead : p = [] ∨ p.head? = some '/'.toUInt8)
    (hp : ∀ c ∈ p, c ∉ ascii "?#") (hq : '#'.toUInt8 ∉ q) :
    IsParts (origin ++ p ++ '?'.toUInt8 :: q) origin p q := by
  have hafter : afterAuthority (origin ++ p ++ '?'.toUInt8 :: q) = p ++ '?'.toUInt8 :: q := by
    rw [append_assoc]
    refine h.after _ fun c hc => ?_
    obtain rfl | hhead := hhead
    · exact Option.some.inj hc ▸ by decide
    · obtain ⟨p, rfl⟩ := head?_eq_some_iff.mp hhead
      exact Option.some.inj hc ▸ by decide
  have hmark : '?'.toUInt8 ∉ origin ++ p := by
    rw [mem_append]
    rintro (hmem | hmem)
    · exact h.noDelimiter _ hmem isDelimiter.1
    · exact hp _ hmem isDelimiter.1
  refine ⟨h, hhead, hp, hq, ?_, path_eq hafter hp fun c hc => ?_, ?_⟩
  · rw [splitQuery, splitOnce_append hmark, Option.getD_some]
  · exact Option.some.inj hc ▸ isDelimiter.1
  · rw [query_eq hafter hp, takeWhile_eq_self_iff.mpr]
    exact fun c hc => decide_eq_true fun heq => hq (heq ▸ hc)

/-- The parts of a URL that is put together from an origin, a path and a query. -/
theorem IsOrigin.isParts_withQuery (h : IsOrigin origin)
    (hhead : p = [] ∨ p.head? = some '/'.toUInt8)
    (hp : ∀ c ∈ p, c ∉ ascii "?#") (hq : '#'.toUInt8 ∉ q) :
    IsParts (withQuery (origin ++ p) q) origin p q := by
  rw [withQuery]
  split_ifs with hnil
  · rw [hnil]
    exact h.isParts hhead hp
  · exact h.isParts_query hhead hp hq

/-- A validated URL without a fragment has parts. -/
theorem exists_isParts (h : validateUrlPrefix parse field urls = .ok ()) (hurl : urlPrefix ∈ urls)
    (hhash : '#'.toUInt8 ∉ urlPrefix) :
    ∃ origin p q, IsParts urlPrefix origin p q ∧ (isValidUtf8 urlPrefix = true →
      isValidUtf8 q = true) := by
  obtain ⟨origin, rest, rfl, horigin, hrest⟩ := exists_origin_of_validate h hurl
  have hslash : ∀ c ∈ ascii "/?#", c ≠ '?'.toUInt8 → c ≠ '#'.toUInt8 → c = '/'.toUInt8 := by
    decide
  have hrest' : '#'.toUInt8 ∉ rest := fun hmem => hhash (mem_append_right _ hmem)
  by_cases hmark : '?'.toUInt8 ∈ rest
  · obtain ⟨p, q, rfl, hp⟩ := eq_append_cons_of_mem hmark
    rw [mem_append, mem_cons, not_or, not_or] at hrest'
    obtain ⟨hp', -, hq⟩ := hrest'
    have hclean : ∀ c ∈ p, c ∉ ascii "?#" := fun c hc hdelim =>
      (eq_or_eq_of_delimiter c hdelim).elim (fun heq => hp (heq ▸ hc)) fun heq => hp' (heq ▸ hc)
    have hhead : p = [] ∨ p.head? = some '/'.toUInt8 := by
      cases p with
      | nil => exact .inl rfl
      | cons c p =>
        refine .inr (congrArg some (hslash c (hrest c rfl) ?_ ?_))
        · exact fun heq => hp (heq ▸ mem_cons_self ..)
        · exact fun heq => hp' (heq ▸ mem_cons_self ..)
    rw [← append_assoc]
    exact ⟨origin, p, q, horigin.isParts_query hhead hclean hq, fun hutf8 =>
      ((isValidUtf8_append_cons (by decide)).mp hutf8).2⟩
  · have hclean : ∀ c ∈ rest, c ∉ ascii "?#" := fun c hc hdelim =>
      (eq_or_eq_of_delimiter c hdelim).elim (fun heq => hmark (heq ▸ hc)) fun heq =>
        hrest' (heq ▸ hc)
    have hhead : rest = [] ∨ rest.head? = some '/'.toUInt8 := by
      cases rest with
      | nil => exact .inl rfl
      | cons c rest =>
        refine .inr (congrArg some (hslash c (hrest c rfl) ?_ ?_))
        · exact fun heq => hmark (heq ▸ mem_cons_self ..)
        · exact fun heq => hrest' (heq ▸ mem_cons_self ..)
    exact ⟨origin, rest, [], horigin.isParts hhead hclean, fun _ => rfl⟩

/-! ### The parts of a target -/

/-- The backend's path as it is in the target, in front of a text. -/
def trimSlash (p s : Bytes) : Bytes :=
  if s.head? = some '/'.toUInt8 ∧ p.getLast? = some '/'.toUInt8 then p.dropLast else p

theorem IsOrigin.trimSlash_append (h : IsOrigin origin) (p s : Bytes) :
    trimSlash (origin ++ p) s = origin ++ trimSlash p s := by
  rw [trimSlash, trimSlash]
  by_cases hp : p = []
  · rw [hp, append_nil, if_neg fun hcond => h.last hcond.2, if_neg (by simp), append_nil]
  · rw [getLast?_append, getLast?_eq_some_getLast hp, Option.some_or]
    split_ifs
    · exact dropLast_append_of_ne_nil hp
    · rfl

/-- The query string of the target. -/
def targetQueryOf (q clientQuery : Bytes) (mergeQueryArgs : List Bytes) : Bytes :=
  if parseQuery clientQuery = [] then q
  else encodeMultimap (mergeQuery q clientQuery mergeQueryArgs)

/-- The target of a request on a route that is not the default one. -/
theorem proxyTarget_eq (h : IsParts urlPrefix origin p q) (head : Head) (dropParts : ℕ)
    (mergeQueryArgs : List Bytes) (hs : dropPrefixParts (normalizePath head.path) dropParts = s) :
    proxyTarget urlPrefix head dropParts mergeQueryArgs false =
      withQuery (origin ++ (trimSlash p s ++ s)) (targetQueryOf q head.query mergeQueryArgs) := by
  have hbase := h.isOrigin.trimSlash_append p s
  rw [trimSlash] at hbase
  rw [proxyTarget, buildTargetUrl, h.split, targetQueryOf, ← append_assoc]
  simp only [Bool.false_eq_true, if_false, hs, hbase]
  split_ifs <;> rfl

/-- The values of a key in the target's query string. -/
theorem valuesOf_targetQueryOf (hq : isValidUtf8 q = true)
    (hclient : isValidUtf8 clientQuery = true)
    (mergeQueryArgs : List Bytes) (key : Bytes) :
    valuesOf key (parseQuery (targetQueryOf q clientQuery mergeQueryArgs)) =
      valuesOf key (parseQuery q) ++
        if key ∈ (parseQuery q).map (·.1) ∧ key ∉ mergeQueryArgs then []
        else valuesOf key (parseQuery clientQuery) := by
  rw [targetQueryOf]
  split_ifs with hargs hclash hclash
  · rw [append_nil]
  · rw [hargs, valuesOf_nil, append_nil]
  · rw [valuesOf_encode_mergeQuery hq hclient, if_pos hclash]
  · rw [valuesOf_encode_mergeQuery hq hclient, if_neg hclash]

theorem not_mem_targetQueryOf (hq : '#'.toUInt8 ∉ q) (clientQuery : Bytes)
    (mergeQueryArgs : List Bytes) :
    '#'.toUInt8 ∉ targetQueryOf q clientQuery mergeQueryArgs := by
  rw [targetQueryOf]
  split_ifs
  · exact hq
  · exact not_mem_encodeMultimap _

/-- The backend's path and the text behind it are a path. -/
theorem IsParts.head?_trimSlash_append (h : IsParts urlPrefix origin p q)
    (hs : s = [] ∨ s.head? = some '/'.toUInt8) :
    (trimSlash p s ++ s = [] ∨ (trimSlash p s ++ s).head? = some '/'.toUInt8) ∧
      ∀ c ∈ trimSlash p s, c ∉ ascii "?#" := by
  have hsub : trimSlash p s <+: p := by
    rw [trimSlash]
    split_ifs
    · exact dropLast_prefix p
    · exact prefix_refl p
  refine ⟨?_, fun c hc => h.noDelimiter c (hsub.subset hc)⟩
  cases htrim : trimSlash p s with
  | nil => exact hs
  | cons c p' =>
    rw [htrim] at hsub
    obtain ⟨rest, hrest⟩ := hsub
    refine .inr ?_
    obtain hnil | hhead := h.head
    · rw [hnil] at hrest
      cases hrest
    · rw [← hrest] at hhead
      exact hhead

/-! ### Texts that stay below -/

theorem resolvePath_trimSlash (hs : s = [] ∨ s.head? = some '/'.toUInt8)
    (hclimbs : climbs 0 (segments s) = false) :
    resolvePath p <+: resolvePath (trimSlash p s ++ s) := by
  obtain rfl | hhead := hs
  · rw [trimSlash, if_neg (by simp), append_nil]
  · rw [trimSlash]
    split_ifs with hlast
    · have hp : p.dropLast ++ ['/'.toUInt8] = p :=
        dropLast_append_getLast? '/'.toUInt8 hlast.2
      have hbelow := (resolvePath_prefix_append (p := p.dropLast) hhead hclimbs).2
      rw [hp] at hbelow
      exact hbelow
    · exact (resolvePath_prefix_append hhead hclimbs).1

/-- A target keeps what the backend enforces when the text behind its path stays below it. -/
theorem enforced_of_staysBelow (h : IsParts urlPrefix origin p q) (hq : isValidUtf8 q = true)
    {head : Head}
    (hhead : isValidUtf8 head.query = true)
    (hbelow : StaysBelow (dropPrefixParts (normalizePath head.path) dropParts))
    (mergeQueryArgs : List Bytes) :
    Enforced urlPrefix (proxyTarget urlPrefix head dropParts mergeQueryArgs false) head.query
      mergeQueryArgs := by
  have hfirst := (head?_dropPrefixParts (head?_normalizePath head.path) dropParts).1
  rw [proxyTarget_eq h head dropParts mergeQueryArgs rfl]
  obtain ⟨hmark, hhash, hclimbs⟩ := hbelow
  generalize dropPrefixParts (normalizePath head.path) dropParts = s at *
  obtain ⟨hpath, hclean⟩ := h.head?_trimSlash_append hfirst
  have hparts := h.isOrigin.isParts_withQuery hpath
    (fun c hc hdelim => (mem_append.mp hc).elim (fun hc => hclean c hc hdelim) fun hc =>
      (eq_or_eq_of_delimiter c hdelim).elim (fun heq => hmark (heq ▸ hc)) fun heq =>
        hhash (heq ▸ hc))
    (not_mem_targetQueryOf h.noFragment head.query mergeQueryArgs)
  have hvalues := valuesOf_targetQueryOf hq hhead mergeQueryArgs
  refine ⟨?_, fun key hkey hlisted => ?_, fun key hkey hlisted => ?_, fun key hkey => ?_⟩
  · rw [h.path, hparts.path]
    exact resolvePath_trimSlash hfirst hclimbs
  all_goals
    rw [h.query] at hkey
    rw [hparts.query, hvalues]
  · rw [if_pos ⟨hkey, hlisted⟩, append_nil, h.query]
  · rw [if_neg fun hclash => hclash.2 hlisted, h.query]
  · rw [if_neg fun hclash => hkey hclash.1, valuesOf_eq_nil hkey, nil_append]

/-! ### Texts that do not stay below -/

/-- The URL parser accepts a plain URL with the scheme `http`. -/
def ParsesHost (parse : Bytes → Option (Bytes × Option Bytes)) : Prop :=
  ∀ rest : Bytes, (∀ c ∈ rest, isUnreserved c = true ∨ c ∈ ascii "/?=") →
    (∀ c ∈ rest.head?, c ∈ ascii "/?") →
    parse (ascii "http://h" ++ rest) = some (ascii "http", some (ascii "h"))

theorem host_eq : ascii "http://h" = ascii "http" ++ ascii "://" ++ ascii "h" := by decide

theorem isOrigin_host : IsOrigin (ascii "http://h") := by
  refine ⟨fun rest hrest => ?_, by decide, by decide⟩
  rw [host_eq]
  exact afterAuthority_append (by decide) (by decide) hrest

theorem rawAuthorityIsEmpty_host (rest : Bytes) :
    rawAuthorityIsEmpty (ascii "http://h" ++ rest) (ascii "http") = false := by
  have hscheme : (ascii "http://h" ++ rest).take (ascii "http").length = ascii "http" := by
    rw [host_eq, append_assoc, append_assoc, take_left]
  have hsep : ((ascii "http://h" ++ rest).drop (ascii "http").length).take 3 = ascii "://" := by
    rw [host_eq, append_assoc, append_assoc, drop_left]
    rfl
  have hauthority : (ascii "http://h" ++ rest).drop ((ascii "http").length + 3) =
      ascii "h" ++ rest := by
    rw [← drop_drop, host_eq, append_assoc, append_assoc, drop_left]
    rfl
  have hmatches : Protoparser.eqIgnoreAsciiCase (ascii "http") (ascii "http") = true :=
    decide_eq_true rfl
  have hclean : ∀ c ∈ ascii "h", decide (c ∉ ascii "/?#") = true := by decide
  rw [rawAuthorityIsEmpty, hscheme, hsep, hauthority, takeWhile_append_of_pos hclean, hmatches]
  rfl

theorem validateUrlPrefix_host (hparse : ParsesHost parse) (field : Bytes) {rest : Bytes}
    (hrest : ∀ c ∈ rest, isUnreserved c = true ∨ c ∈ ascii "/?=")
    (hhead : ∀ c ∈ rest.head?, c ∈ ascii "/?") :
    validateUrlPrefix parse field [ascii "http://h" ++ rest] = .ok () := by
  have hvalid : validateUrl parse field (ascii "http://h" ++ rest) = .ok () := by
    have hhost : (some (ascii "h")).getD [] ≠ [] := by decide
    rw [validateUrl, hparse rest hrest hhead]
    dsimp only
    rw [if_neg fun hcond => hcond.1 rfl, rawAuthorityIsEmpty_host rest, if_neg Bool.false_ne_true,
      if_neg hhost]
  rw [validateUrlPrefix, if_neg (cons_ne_nil _ _)]
  change (validateUrl parse field _ >>= fun _ => _) = _
  rw [hvalid]
  rfl

/-- A plain backend of which the target keeps what it enforces. -/
theorem AlwaysEnforced.host {parse : Bytes → Option (Bytes × Option Bytes)} {head : Head}
    {dropParts : ℕ} (h : AlwaysEnforced parse head dropParts) (hparse : ParsesHost parse)
    {rest : Bytes} (hrest : ∀ c ∈ rest, isUnreserved c = true ∨ c ∈ ascii "/?=")
    (hhead : ∀ c ∈ rest.head?, c ∈ ascii "/?") :
    Enforced (ascii "http://h" ++ rest)
      (proxyTarget (ascii "http://h" ++ rest) head dropParts [] false) head.query [] := by
  have hplain : ∀ c : UInt8, isUnreserved c = true ∨ c ∈ ascii "/?=" →
      c < 0x80 ∧ c ≠ '#'.toUInt8 := by
    rintro c (hc | hc)
    · obtain ⟨hascii, hdelim⟩ := isUnreserved_spec c hc
      exact ⟨hascii, fun heq => hdelim (heq ▸ by decide)⟩
    · revert c
      decide
  have hhost : ∀ c ∈ ascii "http://h", c < 0x80 ∧ c ≠ '#'.toUInt8 := by decide
  have hall : ∀ c ∈ ascii "http://h" ++ rest, c < 0x80 ∧ c ≠ '#'.toUInt8 := fun c hc =>
    (mem_append.mp hc).elim (hhost c) fun hc => hplain c (hrest c hc)
  exact h [] _ _ [] (validateUrlPrefix_host hparse [] hrest hhead) (mem_singleton_self _)
    (isValidUtf8_of_ascii fun c hc => (hall c hc).1) fun hmem => (hall _ hmem).2 rfl

theorem exists_length_lt (l : List Bytes) : ∃ n, ∀ x ∈ l, x.length < n := by
  induction l with
  | nil => exact ⟨0, fun x hx => nomatch hx⟩
  | cons y l ih =>
    obtain ⟨n, hn⟩ := ih
    refine ⟨max n (y.length + 1), fun x hx => ?_⟩
    obtain rfl | hx := mem_cons.mp hx
    · omega
    · have hlt := hn x hx
      omega

/-- A value of lower case letters. -/
def letters (c : UInt8) (n : ℕ) : Bytes := List.replicate n c

theorem parseQuery_emptyKey (n : ℕ) :
    parseQuery ('='.toUInt8 :: letters 'v'.toUInt8 n) = [([], letters 'v'.toUInt8 n)] := by
  have hletters : ∀ c ∈ letters 'v'.toUInt8 n, c = 'v'.toUInt8 := fun c hc => eq_of_mem_replicate hc
  have hamp : '&'.toUInt8 ∉ '='.toUInt8 :: letters 'v'.toUInt8 n := by
    rw [mem_cons]
    rintro (heq | hmem)
    · exact absurd heq (by decide)
    · exact absurd (hletters _ hmem) (by decide)
  have hplain : percentDecodePlus (letters 'v'.toUInt8 n) = letters 'v'.toUInt8 n := by
    rw [percentDecodePlus, decode, if_neg]
    rw [Bool.not_eq_true, any_eq_false]
    intro c hc
    rw [hletters c hc]
    decide
  rw [parseQuery_of_not_mem hamp (cons_ne_nil _ _), parseArg,
    ← nil_append ('='.toUInt8 :: _), splitOnce_append List.not_mem_nil, Option.getD_some, hplain]
  rfl

/-- The query string of the target starts with the argument under the empty key. -/
theorem exists_targetQueryOf_eq (n : ℕ) (hclient : isValidUtf8 clientQuery = true) :
    ∃ tail, targetQueryOf ('='.toUInt8 :: letters 'v'.toUInt8 n) clientQuery [] =
        '='.toUInt8 :: letters 'v'.toUInt8 n ++ tail ∧
      (tail = [] ∨ ∃ rest, tail = '&'.toUInt8 :: rest ∧ ∀ arg ∈ parseQuery rest, arg.1 ≠ []) := by
  have hletters : ∀ c ∈ letters 'v'.toUInt8 n, c = 'v'.toUInt8 := fun c hc => eq_of_mem_replicate hc
  have hq : isValidUtf8 ('='.toUInt8 :: letters 'v'.toUInt8 n) = true := by
    refine isValidUtf8_of_ascii fun c hc => ?_
    obtain rfl | hc := mem_cons.mp hc
    · decide
    · rw [hletters c hc]
      decide
  rw [targetQueryOf]
  split_ifs
  · exact ⟨[], (append_nil _).symm, .inl rfl⟩
  · have htext := isText_mergeQuery hq hclient []
    have hvalue : (mergeQuery ('='.toUInt8 :: letters 'v'.toUInt8 n) clientQuery []).getD [] [] =
        [letters 'v'.toUInt8 n] := by
      rw [getD_mergeQuery, parseQuery_emptyKey, if_pos ⟨mem_singleton_self _, not_mem_nil⟩]
      rfl
    have hleast : ∀ k : Bytes, compare k [] ≠ .lt := by
      intro k
      cases k <;> exact fun heq => nomatch heq
    obtain ⟨others, hargs, hothers⟩ := Multimap.exists_toArgs_eq_cons hleast hvalue
    have hescape : encodeArg ([], letters 'v'.toUInt8 n) =
        '='.toUInt8 :: letters 'v'.toUInt8 n := by
      have hself : ∀ s : Bytes, (∀ c ∈ s, c = 'v'.toUInt8) → queryEscape s = s := by
        intro s hs
        induction s with
        | nil => rfl
        | cons c s ih =>
          have htail := ih fun d hd => hs d (mem_cons_of_mem _ hd)
          rw [queryEscape] at htail ⊢
          rw [flatMap_cons, htail, hs c (mem_cons_self ..)]
          rfl
      rw [encodeArg, hself _ hletters]
      rfl
    rw [encodeMultimap, hargs, map_cons, hescape]
    cases others with
    | nil => exact ⟨[], by rw [map_nil, intercalate_singleton, append_nil], .inl rfl⟩
    | cons arg others =>
      refine ⟨'&'.toUInt8 :: ['&'.toUInt8].intercalate ((arg :: others).map encodeArg), ?_,
        .inr ⟨_, rfl, ?_⟩⟩
      · rw [map_cons, intercalate_cons_cons, append_assoc, singleton_append]
      · rw [parseQuery_intercalate]
        · exact hothers
        · intro arg' harg'
          refine htext arg'.1 arg'.2 ?_
          rw [← Multimap.valuesOf_toArgs, hargs]
          exact mem_valuesOf.mpr (mem_cons_of_mem _ harg')

/-- A delimiter in the text behind the backend's path cuts an argument of the backend off. -/
theorem not_mem_of_delimiter {before after : Bytes} {d : UInt8} {n : ℕ}
    (hclient : isValidUtf8 clientQuery = true) (hbefore : ∀ c ∈ before, c ∉ ascii "?#")
    (hd : d ∈ ascii "?#")
    (hfirst : (before ++ d :: after).head? = some '/'.toUInt8)
    (hfresh : ([], letters 'v'.toUInt8 n) ∉ parseQuery after)
    (hfresh' : ([], letters 'v'.toUInt8 n) ∉ parseQuery (after.takeWhile (· ≠ '#'.toUInt8))) :
    ([], letters 'v'.toUInt8 n) ∉ parseQuery
    (query (withQuery (ascii "http://h" ++ (before ++ d :: after))
      (targetQueryOf ('='.toUInt8 :: letters 'v'.toUInt8 n) clientQuery []))) := by
  have hletters : ∀ c ∈ letters 'v'.toUInt8 n, c = 'v'.toUInt8 := fun c hc => eq_of_mem_replicate hc
  have hq : '#'.toUInt8 ∉ '='.toUInt8 :: letters 'v'.toUInt8 n := by
    rw [mem_cons]
    rintro (heq | hmem)
    · exact absurd heq (by decide)
    · exact absurd (hletters _ hmem) (by decide)
  have hhash := not_mem_targetQueryOf hq clientQuery []
  obtain ⟨tail, htarget, htail⟩ := exists_targetQueryOf_eq n hclient
  rw [htarget] at hhash ⊢
  have hafter : afterAuthority (withQuery (ascii "http://h" ++ (before ++ d :: after))
      ('='.toUInt8 :: letters 'v'.toUInt8 n ++ tail)) =
      before ++ d :: (after ++ '?'.toUInt8 :: ('='.toUInt8 :: letters 'v'.toUInt8 n ++ tail)) := by
    rw [withQuery, if_neg (by simp), append_assoc, isOrigin_host.after]
    · rw [append_assoc, cons_append]
    · intro c hc
      rw [head?_append, hfirst] at hc
      exact Option.some.inj hc ▸ by decide
  obtain rfl | rfl := eq_or_eq_of_delimiter d hd
  · rw [query_eq hafter hbefore]
    by_cases hcut : '#'.toUInt8 ∈ after
    · -- what is read as the query ends before the backend's arguments
      have htake : (after ++ '?'.toUInt8 :: ('='.toUInt8 :: letters 'v'.toUInt8 n ++
          tail)).takeWhile (· ≠ '#'.toUInt8) = after.takeWhile (· ≠ '#'.toUInt8) := by
        obtain ⟨l, r, rfl, hl⟩ := eq_append_cons_of_mem hcut
        have hl' : ∀ c ∈ l, decide (c ≠ '#'.toUInt8) = true := fun c hc =>
          decide_eq_true fun heq => hl (heq ▸ hc)
        rw [append_assoc, takeWhile_append_of_pos hl', takeWhile_append_of_pos hl']
        rfl
      rw [htake]
      exact hfresh'
    · -- the first of the backend's arguments is glued to the text
      have htake : (after ++ '?'.toUInt8 :: ('='.toUInt8 :: letters 'v'.toUInt8 n ++
          tail)).takeWhile (· ≠ '#'.toUInt8) =
          (after ++ '?'.toUInt8 :: '='.toUInt8 :: letters 'v'.toUInt8 n) ++ tail := by
        rw [takeWhile_eq_self_iff.mpr]
        · simp
        · intro c hc
          refine decide_eq_true fun heq => ?_
          rw [heq, mem_append, mem_cons] at hc
          obtain hc | hc | hc := hc
          · exact hcut hc
          · exact absurd hc (by decide)
          · exact hhash hc
      have hglued := @not_mem_parseQuery_glued (letters 'v'.toUInt8 n)
        (fun hmem => absurd (hletters _ hmem) (by decide))
        (fun hmem => absurd (hletters _ hmem) (by decide)) after hfresh
      rw [htake]
      obtain rfl | ⟨rest, rfl, hrest⟩ := htail
      · rw [append_nil]
        exact hglued
      · rw [parseQuery_lineByLine.append, mem_append, not_or]
        exact ⟨hglued, fun hmem => hrest _ hmem rfl⟩
  · rw [query_eq_nil hafter hbefore fun c hc => (Option.some.inj hc).symm]
    exact not_mem_nil

/-- A text with a delimiter has a first one. -/
theorem exists_first_delimiter (h : ¬ ∀ c ∈ s, c ∉ ascii "?#") :
    ∃ before d after, s = before ++ d :: after ∧ (∀ c ∈ before, c ∉ ascii "?#") ∧
    d ∈ ascii "?#" := by
  induction s with
  | nil => exact absurd (fun c hc => nomatch hc) h
  | cons c s ih =>
    by_cases hc : c ∈ ascii "?#"
    · exact ⟨[], c, s, rfl, (fun c hc => nomatch hc), hc⟩
    · have htail : ¬ ∀ c ∈ s, c ∉ ascii "?#" := fun hclean =>
        h fun b hb => (mem_cons.mp hb).elim (fun heq => heq ▸ hc) (hclean b)
      obtain ⟨before, d, after, rfl, hbefore, hd⟩ := ih htail
      exact ⟨c :: before, d, after, rfl, forall_mem_cons.mpr ⟨hc, hbefore⟩, hd⟩

theorem isLetter_of_mem {c d : UInt8} {n : ℕ} (hc : isUnreserved c = true)
    (hd : d ∈ letters c n) : isUnreserved d = true ∧ d < 0x80 ∧ d ∉ ascii "/?#" := by
  obtain rfl := eq_of_mem_replicate hd
  exact ⟨hc, isUnreserved_spec _ hc⟩

/-- Where the text behind the path has a delimiter, some backend's arguments are lost. -/
theorem forall_not_mem_of_enforced (hparse : ParsesHost parse) {head : Head}
    (hhead : isValidUtf8 head.query = true) (h : AlwaysEnforced parse head dropParts) :
    ∀ c ∈ dropPrefixParts (normalizePath head.path) dropParts, c ∉ ascii "?#" := by
  by_contra hdelim
  obtain ⟨before, d, after, hs, hbefore, hd⟩ := exists_first_delimiter hdelim
  have hfirst : (before ++ d :: after).head? = some '/'.toUInt8 := by
    rw [← hs]
    refine (head?_dropPrefixParts (head?_normalizePath head.path) dropParts).1.resolve_left
      fun hnil => ?_
    rw [hnil] at hs
    exact append_ne_nil_of_right_ne_nil before (cons_ne_nil d after) hs.symm
  obtain ⟨n, hn⟩ := exists_length_lt
    ((parseQuery after ++ parseQuery (after.takeWhile (· ≠ '#'.toUInt8))).map (·.2))
  have hfresh : ∀ args, args ⊆ parseQuery after ++ parseQuery (after.takeWhile (· ≠ '#'.toUInt8)) →
      ([], letters 'v'.toUInt8 n) ∉ args := by
    intro args hsub hmem
    have hlt := hn _ (mem_map_of_mem (hsub hmem))
    rw [letters, length_replicate] at hlt
    exact lt_irrefl _ hlt
  have hletters := fun d => @isLetter_of_mem 'v'.toUInt8 d n (by decide)
  have hhash : '#'.toUInt8 ∉ '='.toUInt8 :: letters 'v'.toUInt8 n := by
    rw [mem_cons, not_or]
    exact ⟨by decide, fun hmem => (hletters _ hmem).2.2 (by decide)⟩
  have hparts := isOrigin_host.isParts_query (.inl rfl) (fun c hc => nomatch hc) hhash
  rw [append_nil] at hparts
  have hkept := @AlwaysEnforced.host parse head dropParts h hparse
    ('?'.toUInt8 :: '='.toUInt8 :: letters 'v'.toUInt8 n) ?_ ?_
  · have hvalues := hkept.enforced []
    rw [hparts.query, parseQuery_emptyKey, proxyTarget_eq hparts head dropParts [] hs, trimSlash,
      if_neg (by simp), nil_append] at hvalues
    have hlost := not_mem_of_delimiter hhead hbefore hd hfirst
      (hfresh _ (subset_append_left _ _)) (hfresh _ (subset_append_right _ _))
    refine hlost (mem_valuesOf.mp ?_)
    rw [hvalues (mem_singleton_self _) not_mem_nil]
    exact mem_singleton_self _
  · refine forall_mem_cons.mpr ⟨.inr (by decide), forall_mem_cons.mpr ⟨.inr (by decide), ?_⟩⟩
    exact fun c hc => .inl (hletters c hc).1
  · exact fun c hc => Option.some.inj hc ▸ by decide

/-- Where the text behind the path climbs, some backend's path is lost. -/
theorem not_climbs_of_enforced (hparse : ParsesHost parse) {head : Head}
    (hclean : ∀ c ∈ dropPrefixParts (normalizePath head.path) dropParts, c ∉ ascii "?#")
    (h : AlwaysEnforced parse head dropParts) :
    climbs 0 (segments (dropPrefixParts (normalizePath head.path) dropParts)) = false := by
  have hfirst := (head?_dropPrefixParts (head?_normalizePath head.path) dropParts).1
  by_contra hclimbs
  rw [Bool.not_eq_false] at hclimbs
  have hslash := hfirst.resolve_left fun hnil => by
    rw [hnil] at hclimbs
    cases hclimbs
  obtain ⟨n, hn⟩ := exists_length_lt
    (segments (dropPrefixParts (normalizePath head.path) dropParts))
  have hletters := fun d => @isLetter_of_mem 'z'.toUInt8 d (n + 1) (by decide)
  have hz : ∀ c ∈ '/'.toUInt8 :: letters 'z'.toUInt8 (n + 1), c ∉ ascii "?#" := by
    intro c hc
    obtain rfl | hc := mem_cons.mp hc
    · decide
    · exact fun hdelim => (hletters c hc).2.2 (mem_cons_of_mem _ hdelim)
  have hparts := isOrigin_host.isParts (.inr rfl) hz
  have hkept := @AlwaysEnforced.host parse head dropParts h hparse
    ('/'.toUInt8 :: letters 'z'.toUInt8 (n + 1)) ?_ ?_
  · have hlast : ('/'.toUInt8 :: letters 'z'.toUInt8 (n + 1)).getLast? ≠ some '/'.toUInt8 := by
      rw [letters, replicate_succ', ← cons_append, getLast?_concat]
      decide
    have hdot : isDotDot (letters 'z'.toUInt8 (n + 1)) = false ∧
        isDot (letters 'z'.toUInt8 (n + 1)) = false := by
      have hspell : ∀ s ∈ dots ++ dots.flatMap fun s => dots.map (s ++ ·),
          s.head? ≠ some 'z'.toUInt8 := by decide
      rw [isDotDot, isDot, decide_eq_false_iff_not, decide_eq_false_iff_not]
      exact ⟨fun hmem => hspell _ (mem_append_right _ hmem) rfl,
        fun hmem => hspell _ (mem_append_left _ hmem) rfl⟩
    have hnot : '/'.toUInt8 ∉ letters 'z'.toUInt8 (n + 1) := fun hmem =>
      (hletters _ hmem).2.2 (by decide)
    have htarget := isOrigin_host.isParts_withQuery
      (p := '/'.toUInt8 :: letters 'z'.toUInt8 (n + 1) ++
        dropPrefixParts (normalizePath head.path) dropParts) (.inr rfl)
      (fun c hc => (mem_append.mp hc).elim (hz c) (hclean c))
      (not_mem_targetQueryOf not_mem_nil head.query [])
    have hpath := hkept.path
    rw [hparts.path, resolvePath_cons hnot hdot, proxyTarget_eq hparts head dropParts [] rfl,
      trimSlash, if_neg fun hcond => hlast hcond.2, htarget.path] at hpath
    refine not_isPrefix_resolvePath_append hnot hdot (fun x hx => ?_) hslash hclimbs hpath
    rw [letters, length_replicate]
    exact (hn x hx).trans (Nat.lt_succ_self n)
  · refine forall_mem_cons.mpr ⟨.inr (by decide), ?_⟩
    exact fun c hc => .inl (hletters c hc).1
  · exact fun c hc => Option.some.inj hc ▸ by decide

/-! ### What the proxy enforces -/

/-- The proxy enforces a backend's path and arguments on a request exactly when the text that it
puts behind the path stays below it. -/
theorem enforced_iff {parse : Bytes → Option (Bytes × Option Bytes)} (hparse : ParsesHost parse)
    {raw : Bytes} {capture : Bool} {head : Head}
    (hhead : parseHeadCapturing raw capture = some head)
    (dropParts : ℕ) :
    AlwaysEnforced parse head dropParts ↔
      StaysBelow (dropPrefixParts (normalizePath head.path) dropParts) := by
  have hquery := isValidUtf8_query hhead
  constructor
  · intro h
    have hclean := forall_not_mem_of_enforced hparse hquery h
    exact ⟨fun hmem => hclean _ hmem isDelimiter.1, fun hmem => hclean _ hmem isDelimiter.2,
      not_climbs_of_enforced hparse hclean h⟩
  · intro hbelow field urls urlPrefix mergeQueryArgs hvalid hurl hutf8 hhash
    obtain ⟨origin, p, q, hparts, hq⟩ := exists_isParts hvalid hurl hhash
    exact enforced_of_staysBelow hparts (hq hutf8) hquery hbelow mergeQueryArgs

/-- A URL parser that knows one host. -/
def hostParser (url : Bytes) : Option (Bytes × Option Bytes) :=
  if ascii "http://h" <+: url then some (ascii "http", some (ascii "h")) else none

/-- A request whose path has an encoded question mark and an encoded number sign. -/
def encodedDelimiters : Bytes := ascii "GET /q%3Ftenant=2%23 HTTP/1.1\r\n\r\n"

theorem isSome_encodedDelimiters : (parseHeadCapturing encodedDelimiters false).isSome = true := by
  decide +kernel

/-- The head of that request. -/
def encodedHead : Head := (parseHeadCapturing encodedDelimiters false).get isSome_encodedDelimiters

theorem parse_encodedDelimiters : parseHeadCapturing encodedDelimiters false =
    some encodedHead := by
  rw [encodedHead, Option.some_get]

theorem target_encodedHead :
    encodedHead.path = ascii "/q?tenant=2#" ∧ encodedHead.query = [] := by decide +kernel

theorem parsesHost_hostParser : ParsesHost hostParser := by
  intro rest _ _
  rw [hostParser, if_pos (prefix_append _ _)]

theorem not_enforced_encodedDelimiters : ¬ AlwaysEnforced hostParser encodedHead 0 := by
  have hpath : normalizePath (ascii "/q?tenant=2#") = ascii "/q?tenant=2#" := by decide
  rw [enforced_iff parsesHost_hostParser parse_encodedDelimiters 0, target_encodedHead.1, hpath]
  exact fun h => h.1 (by decide)

/-- The request above gets the arguments of another tenant than the one that the backend
enforces. -/
theorem tenant_replaced : ∃ raw head, parseHeadCapturing raw false = some head ∧
    ∃ urlPrefix, validateUrlPrefix hostParser (ascii "url_prefix") [urlPrefix] = .ok () ∧
      proxyTarget urlPrefix head 0 [] false = ascii "http://h/api/q?tenant=2#?tenant=1" ∧
      ¬ Enforced urlPrefix (proxyTarget urlPrefix head 0 [] false) head.query [] := by
  have htarget : proxyTarget (ascii "http://h/api?tenant=1") encodedHead 0 [] false =
      ascii "http://h/api/q?tenant=2#?tenant=1" := by
    rw [proxyTarget, target_encodedHead.1, target_encodedHead.2]
    decide
  refine ⟨encodedDelimiters, encodedHead, parse_encodedDelimiters,
    ascii "http://h/api?tenant=1", by decide, htarget, fun h => ?_⟩
  have htenant := h.enforced (ascii "tenant") (by decide) (by decide)
  rw [htarget] at htenant
  revert htenant
  decide

end Esmetrics.Auth
