-- How download takes a URL apart (internet.cpp): positions in parts that are cut
-- again and again give the host, the port and what is requested.
import Mathlib.Data.List.TakeWhile
import Mathlib.Tactic
import Socle.HttpGet

namespace socle.inet

open lib.text

/-! ## The parts of a URL -/

/-- "http://", and "https://". -/
def http : text := ['h', 't', 't', 'p', ':', '/', '/']
def https : text := ['h', 't', 't', 'p', 's', ':', '/', '/']

/-- The variables of `download` that the URL gives. -/
structure url_parts where
  domain : text
  url_port : text
  path : text
deriving DecidableEq

/-- How `download` finds them. -/
def parts_of (url : text) : url_parts :=
  let offset := if url.take 8 = https then 8 else 0
  let offset := if offset = 0 ∧ url.take 7 = http then 7 else offset
  let pos1 := find_first_of ['/'] url (offset + 1)
  let path := match pos1 with
    | some pos1 => url.drop pos1
    | none => []
  let domain := match pos1 with
    | some pos1 => substr url offset (pos1 - offset)
    | none => url.drop offset
  let path := match find_first_of ['#'] path 0 with
    | some pos2 => path.take pos2
    | none => path
  let pos3 := find_first_of [':'] domain 0
  let url_port := match pos3 with
    | some pos3 => domain.drop (pos3 + 1)
    | none => ['8', '0']
  let domain := match pos3 with
    | some pos3 => domain.take pos3
    | none => domain
  let protocol := if offset > 0 then url.take (offset - 3) else []
  let pos4 := find_first_of ['?'] path 0
  let query := match pos4 with
    | some pos4 => path.drop (pos4 + 1)
    | none => []
  let path := match pos4 with
    | some pos4 => path.take pos4
    | none => path
  let path := if path = [] then ['/'] else path
  let path := if query.length > 0 then path ++ ['?'] ++ query else path
  let url_port :=
    if protocol.length > 0 then
      if protocol = ['h', 't', 't', 'p'] then ['8', '0']
      else if protocol = ['h', 't', 't', 'p', 's'] then ['4', '4', '3']
      else url_port
    else url_port
  { domain, url_port, path }

/-! ## The download -/

/-- What `std::stoi` throws. -/
inductive stoi_error where
  | invalid_argument | out_of_range
deriving DecidableEq

def stoi (s : text) : Except stoi_error Int :=
  match strtol s with
  | none => throw .invalid_argument
  | some n => if INT_MIN ≤ n ∧ n ≤ INT_MAX then pure n else throw .out_of_range

/-- The functions that `download` calls. `dns_lookup` gets the same `ipv` each time, and `http_get`
gives what it returns and the buffer. -/
structure environment where
  is_ipv4_address : text → Bool
  is_ipv6_address : text → Bool
  dns_lookup : text → List text
  http_get : text → text → UInt16 → text → Int × text

/-- A call of `dns_lookup` or `http_get`. -/
inductive call where
  | dns_lookup (host_name : text)
  | http_get (request ip_address : text) (port : UInt16)

/-- The request for a target, to a host. -/
def request_of (path domain : text) : text :=
  "GET ".toList ++ path ++ " HTTP/1.0\r\n".toList ++
    ("Host: ".toList ++ domain ++ "\r\n\r\n".toList)

variable (env : environment)

/-- The addresses of a domain, and the calls that give them. -/
def addresses (domain : text) : List text × List call :=
  if domain.length > 0 then
    if env.is_ipv4_address domain then ([domain], [])
    else if env.is_ipv6_address domain then ([domain], [])
    else (env.dns_lookup domain, [.dns_lookup domain])
  else ([], [])

/-- The loop over the addresses: what is returned, the buffer, and the calls. -/
def get_from (request : text) (port : UInt16) (buf : text) : List text → Int × text × List call
  | [] => (0, buf, [])
  | ip :: ips =>
    let (r, buf) := env.http_get request ip port buf
    if r = 0 then
      let (ret, buf, calls) := get_from request port buf ips
      (ret, buf, .http_get request ip port :: calls)
    else (r, buf, [.http_get request ip port])

def download (url buf : text) : Except stoi_error (Int × text × List call) := do
  let { domain, url_port, path } := parts_of url
  let (ip_addresses, lookups) := addresses env domain
  if ip_addresses ≠ [] then
    let port ← stoi url_port
    let (ret, buf, calls) :=
      get_from env (request_of path domain) (UInt16.ofNat (port % 65536).toNat) buf ip_addresses
    pure (ret, buf, lookups ++ calls)
  else pure (0, buf, lookups)

/-! ## The law -/

inductive scheme where
  | http | https
deriving DecidableEq

/-- A host: a name or an IPv4 address, or an IPv6 address that stands in brackets. -/
inductive host where
  | name (t : text)
  | v6 (t : text)

/-- What separates the parts of a URL. -/
def separators : text := [':', '/', '?', '#']

/-- The characters fit the kind of host. -/
def host.Valid : host → Prop
  | name t => t ≠ [] ∧ ∀ c ∈ t, c ∉ separators
  | v6 t => ':' ∈ t ∧ ∀ c ∈ t, c ∉ ['/', '?', '#']

/-- A URL. -/
structure Url where
  scheme : Option scheme
  host : host
  port : Option text
  path : text
  query : Option text
  fragment : Option text
  host_valid : host.Valid
  port_valid : ∀ p ∈ port, p ≠ [] ∧ p.all Char.isDigit ∧ decimal p < 65536
  path_valid : path = [] ∨ ∃ rest, path = '/' :: rest
  path_chars : ∀ c ∈ path, c ∉ ['?', '#']
  query_chars : ∀ q ∈ query, '#' ∉ q

/-- A part that may be missing, behind its mark. -/
def marked (mark : Char) : Option text → text
  | some t => mark :: t
  | none => []

namespace Url

/-- The text in front of the host. -/
def start (u : Url) : text :=
  match u.scheme with
  | some .http => http
  | some .https => https
  | none => []

def host_text (u : Url) : text :=
  match u.host with
  | .name t => t
  | .v6 t => ['['] ++ t ++ [']']

def port_text (u : Url) : text := marked ':' u.port

def query_text (u : Url) : text := marked '?' u.query

def fragment_text (u : Url) : text := marked '#' u.fragment

/-- The URL as a text. -/
def render (u : Url) : text :=
  u.start ++ (u.host_text ++ u.port_text ++ (u.path ++ u.query_text ++ u.fragment_text))

/-- The host that is looked up. An address stands for itself, without its brackets. -/
def host_name (u : Url) : text :=
  match u.host with
  | .name t => t
  | .v6 t => t

def default_port (u : Url) : Nat :=
  if u.scheme = some .https then 443 else 80

def port_number (u : Url) : Nat :=
  match u.port with
  | some p => decimal p
  | none => u.default_port

/-- The path or "/", and the query. -/
def target (u : Url) : text :=
  (if u.path = [] then ['/'] else u.path) ++ u.query_text

end Url

/-- A call is one that the URL means. -/
def Url.Means (u : Url) : call → Prop
  | .dns_lookup host_name => host_name = u.host_name
  | .http_get request ip_address port =>
    request = request_of u.target u.host_name ∧ ip_address ∈ (addresses env u.host_name).1 ∧
      port.toNat = u.port_number

/-- The download of a URL makes only calls that the URL means, whatever they give. -/
def Url.Followed (u : Url) : Prop :=
  ∀ env buf, ∃ ret buf' calls, download env u.render buf = .ok (ret, buf', calls) ∧
    ∀ c ∈ calls, u.Means env c

/-! ## When it holds -/

namespace Url

/-- Where there is no path, the text behind the first "/" of the query and the fragment is taken
for one. It happens to ask for the same. -/
def Lucky (u : Url) : Prop :=
  let cut := ((u.query_text ++ u.fragment_text).dropWhile (· ≠ '/')).takeWhile (· ≠ '#')
  match u.query with
  | none => cut ∈ [[], ['/'], ['/', '?']]
  | some q => q ≠ [] ∧ cut = ['/', '?'] ++ q

/-- When the parts are those of the URL. -/
structure Sound (u : Url) : Prop where
  host : ∃ t, u.host = .name t
  port : u.scheme = none ∨ u.port = none ∨ u.port_number = u.default_port
  path : u.path ≠ [] → u.query ≠ some []
  no_path : u.path = [] → u.query = none ∧ u.fragment = none ∨ u.port ≠ none ∧ u.Lucky

end Url

/-! ## What the positions cut -/

/-- The number of characters of the protocol, with "://". -/
def offset_of (url : text) : Nat :=
  let offset := if url.take 8 = https then 8 else 0
  if offset = 0 ∧ url.take 7 = http then 7 else offset

/-- What is requested, from a path that may have a query. -/
def requested (cut : text) : text :=
  let path := cut.takeWhile (· ≠ '?')
  let query := if '?' ∈ cut then (cut.dropWhile (· ≠ '?')).tail else []
  let path := if path = [] then ['/'] else path
  if query.length > 0 then path ++ ['?'] ++ query else path

/-- The port for a protocol, or what the domain says. -/
def port_for (protocol domain : text) : text :=
  let url_port := if ':' ∈ domain then (domain.dropWhile (· ≠ ':')).tail else ['8', '0']
  if protocol.length > 0 then
    if protocol = ['h', 't', 't', 'p'] then ['8', '0']
    else if protocol = ['h', 't', 't', 'p', 's'] then ['4', '4', '3']
    else url_port
  else url_port

/-- The later cuts, by what they leave. -/
theorem parts_of_cuts (url : text) :
    let pos1 := find_first_of ['/'] url (offset_of url + 1)
    let path := match pos1 with
      | some pos1 => url.drop pos1
      | none => []
    let domain := match pos1 with
      | some pos1 => substr url (offset_of url) (pos1 - offset_of url)
      | none => url.drop (offset_of url)
    parts_of url =
      { domain := domain.takeWhile (· ≠ ':')
        url_port := port_for (if offset_of url > 0 then url.take (offset_of url - 3) else []) domain
        path := requested (path.takeWhile (· ≠ '#')) } := by
  intro pos1 path domain
  have hpath : (match find_first_of ['#'] path 0 with
      | some pos2 => path.take pos2
      | none => path) = path.takeWhile (· ≠ '#') := take_before '#' path
  have hport : (match find_first_of [':'] domain 0 with
      | some pos3 => domain.drop (pos3 + 1)
      | none => ['8', '0']) = _ := drop_after ':' domain ['8', '0']
  have hdomain : (match find_first_of [':'] domain 0 with
      | some pos3 => domain.take pos3
      | none => domain) = domain.takeWhile (· ≠ ':') := take_before ':' domain
  generalize hcut : path.takeWhile (· ≠ '#') = cut at hpath ⊢
  have hquery : (match find_first_of ['?'] cut 0 with
      | some pos4 => cut.drop (pos4 + 1)
      | none => []) = _ := drop_after '?' cut []
  have hbefore : (match find_first_of ['?'] cut 0 with
      | some pos4 => cut.take pos4
      | none => cut) = cut.takeWhile (· ≠ '?') := take_before '?' cut
  unfold port_for requested
  rw [← hport, ← hdomain, ← hquery, ← hbefore, ← hpath]
  rfl

/-- The domain and the path that the first "/" separates. -/
theorem slash_cut {start authority tail : text} (hne : authority ≠ []) (hslash : '/' ∉ authority) :
    let url := start ++ (authority ++ tail)
    let pos1 := find_first_of ['/'] url (start.length + 1)
    (match pos1 with
      | some pos1 => url.drop pos1
      | none => []) = tail.dropWhile (· ≠ '/') ∧
    (match pos1 with
      | some pos1 => substr url start.length (pos1 - start.length)
      | none => url.drop start.length) = authority ++ tail.takeWhile (· ≠ '/') := by
  intro url pos1
  obtain ⟨c, rest, rfl⟩ := List.exists_cons_of_ne_nil hne
  have hrest : ∀ d ∈ rest, decide (d ≠ '/') = true := by
    intro d hd
    apply decide_eq_true
    rintro rfl
    exact hslash (List.mem_cons_of_mem c hd)
  have hp : (fun d : Char => !decide (d ∈ ['/'])) = fun d => decide (d ≠ '/') := by
    funext d
    simp
  have hurl : url = (start ++ [c]) ++ (rest ++ tail) := by
    show start ++ (c :: rest ++ tail) = _
    rw [List.append_assoc]
    rfl
  have hlen : start.length + 1 = (start ++ [c]).length := by
    rw [List.length_append, List.length_singleton]
  have hpos : pos1 = if tail.dropWhile (· ≠ '/') = [] then none
      else some (start.length + 1 + (rest ++ tail.takeWhile (· ≠ '/')).length) := by
    show find_first_of ['/'] url (start.length + 1) = _
    unfold find_first_of
    rw [hurl, find_from_append _ (start ++ [c]) _ hlen, hp, List.dropWhile_append_of_pos hrest,
      List.takeWhile_append_of_pos hrest]
  have hsplit := @List.takeWhile_append_dropWhile _ (fun d => decide (d ≠ '/')) tail
  rw [hpos]
  by_cases hend : tail.dropWhile (· ≠ '/') = []
  · rw [if_pos hend]
    rw [hend, List.append_nil] at hsplit
    refine ⟨hend.symm, ?_⟩
    dsimp only
    rw [hsplit]
    exact List.drop_left
  · rw [if_neg hend]
    have hdomain : url = start ++ ((c :: rest ++ tail.takeWhile (· ≠ '/')) ++
        tail.dropWhile (· ≠ '/')) := by
      rw [List.append_assoc (c :: rest), hsplit]
    dsimp only
    constructor
    · rw [hdomain, ← List.append_assoc]
      apply List.drop_left'
      simp only [List.length_append, List.length_cons]
      omega
    · rw [hdomain]
      apply substr_append
      · rfl
      · simp only [List.length_append, List.length_cons]
        omega

/-- The parts, from what stands in front of the host, the domain, and the path. -/
theorem parts_of_eq {start authority tail : text} (hne : authority ≠ []) (hslash : '/' ∉ authority)
    (hoffset : offset_of (start ++ (authority ++ tail)) = start.length) :
    let domain := authority ++ tail.takeWhile (· ≠ '/')
    parts_of (start ++ (authority ++ tail)) =
      { domain := domain.takeWhile (· ≠ ':')
        url_port := port_for (start.take (start.length - 3)) domain
        path := requested ((tail.dropWhile (· ≠ '/')).takeWhile (· ≠ '#')) } := by
  intro domain
  obtain ⟨hpath, hdomain⟩ := @slash_cut start authority tail hne hslash
  have hcuts := parts_of_cuts (start ++ (authority ++ tail))
  have hprotocol : (if start.length > 0 then
      (start ++ (authority ++ tail)).take (start.length - 3) else []) =
        start.take (start.length - 3) := by
    by_cases hpos : start.length > 0
    · rw [if_pos hpos, List.take_append_of_le_length (Nat.sub_le _ _)]
    · rw [if_neg hpos, List.length_eq_zero_iff.mp (by omega : start.length = 0)]
      rfl
  dsimp only at hcuts hpath hdomain
  rw [hoffset, hpath, hdomain, hprotocol] at hcuts
  exact hcuts

/-! ## The parts of a URL's text -/

variable {u : Url} {a t : text} {mark : Char}

/-- Everything in front of the mark is taken. -/
theorem takeWhile_marked (ha : mark ∉ a) (part : Option text) (rest : text)
    (hrest : part = none → rest = []) :
    (a ++ (marked mark part ++ rest)).takeWhile (· ≠ mark) = a ∧
      (a ++ (marked mark part ++ rest)).dropWhile (· ≠ mark) = marked mark part ++ rest := by
  have hall : ∀ c ∈ a, decide (c ≠ mark) = true := by
    intro c hc
    apply decide_eq_true
    rintro rfl
    exact ha hc
  rw [List.takeWhile_append_of_pos hall, List.dropWhile_append_of_pos hall]
  cases part with
  | none =>
    rw [hrest rfl]
    simp [marked]
  | some part => simp [marked]

/-- Each text is one with a part that may be missing. -/
theorem exists_marked (mark : Char) (l : text) :
    ∃ a part, mark ∉ a ∧ l = a ++ marked mark part := by
  have hsplit := @List.takeWhile_append_dropWhile _ (fun d => decide (d ≠ mark)) l
  have hno : mark ∉ l.takeWhile (· ≠ mark) := by
    intro hmem
    exact absurd (List.mem_takeWhile_imp hmem) (by simp)
  cases hdrop : l.dropWhile (· ≠ mark) with
  | nil =>
    rw [hdrop] at hsplit
    exact ⟨l.takeWhile (· ≠ mark), none, hno, hsplit.symm⟩
  | cons c part =>
    have hne : l.dropWhile (fun d => decide (d ≠ mark)) ≠ [] := by
      rw [hdrop]
      exact List.cons_ne_nil c part
    have hhead := List.head_dropWhile_not (fun d => decide (d ≠ mark)) hne
    simp only [hdrop, List.head_cons, decide_eq_false_iff_not, not_not] at hhead
    rw [hdrop, hhead] at hsplit
    exact ⟨l.takeWhile (· ≠ mark), some part, hno, hsplit.symm⟩

/-- An empty query is left out, and an empty path is "/". -/
theorem requested_marked (ha : '?' ∉ a) (query : Option text) :
    requested (a ++ marked '?' query) =
      (if a = [] then ['/'] else a) ++ if query = some [] then [] else marked '?' query := by
  obtain ⟨hbefore, hbehind⟩ := takeWhile_marked ha query [] fun _ => rfl
  rw [List.append_nil] at hbefore hbehind
  unfold requested
  rw [hbefore, hbehind]
  cases query with
  | none =>
    have hno : '?' ∉ a ++ marked '?' none := by
      rw [marked, List.append_nil]
      exact ha
    rw [if_neg hno]
    simp [marked]
  | some q =>
    have hmem : '?' ∈ a ++ marked '?' (some q) := by
      simp [marked]
    rw [if_pos hmem]
    cases q with
    | nil => simp [marked]
    | cons c q => simp [marked]

/-! ## In front of the host -/

theorem host_text_ne_nil (u : Url) : u.host_text ≠ [] := by
  have hvalid := u.host_valid
  unfold Url.host_text
  cases hhost : u.host with
  | name t =>
    rw [hhost] at hvalid
    exact hvalid.1
  | v6 t => simp

theorem port_digits {p : text} (h : u.port = some p) :
    p ≠ [] ∧ (∀ c ∈ p, c.isDigit) ∧ decimal p < 65536 := by
  obtain ⟨hne, hdigits, hlt⟩ := u.port_valid p h
  exact ⟨hne, List.all_eq_true.mp hdigits, hlt⟩

theorem authority_slash (u : Url) : '/' ∉ u.host_text ++ u.port_text := by
  have hvalid := u.host_valid
  intro hmem
  rcases List.mem_append.mp hmem with hhost | hport
  · unfold Url.host_text at hhost
    cases h : u.host with
    | name t =>
      rw [h] at hvalid hhost
      exact hvalid.2 '/' hhost (by decide)
    | v6 t =>
      rw [h] at hvalid hhost
      have ht : '/' ∈ t := by simpa using hhost
      exact hvalid.2 '/' ht (by decide)
  · unfold Url.port_text at hport
    cases h : u.port with
    | none =>
      rw [h] at hport
      exact absurd hport (List.not_mem_nil)
    | some p =>
      rw [h] at hport
      have hp : '/' ∈ p := by simpa [marked] using hport
      exact absurd ((port_digits h).2.1 '/' hp) (by decide)

/-- What is behind the host: the end, or a separator, and a digit behind ":". -/
structure Behind (more : text) : Prop where
  head : ∀ c l, more = c :: l → c ∈ separators
  port : ∀ c l, more = ':' :: c :: l → c ≠ '/'

theorem tail_head (u : Url) (c : Char) (l : text)
    (h : u.path ++ u.query_text ++ u.fragment_text = c :: l) : c ∈ ['/', '?', '#'] := by
  rcases u.path_valid with hpath | ⟨rest, hpath⟩
  · rw [hpath] at h
    unfold Url.query_text Url.fragment_text at h
    cases hq : u.query with
    | some q =>
      rw [hq] at h
      obtain ⟨rfl, -⟩ := List.cons.inj h
      decide
    | none =>
      cases hf : u.fragment with
      | some f =>
        rw [hq, hf] at h
        obtain ⟨rfl, -⟩ := List.cons.inj h
        decide
      | none =>
        rw [hq, hf] at h
        exact absurd h (by simp [marked])
  · rw [hpath] at h
    obtain ⟨rfl, -⟩ := List.cons.inj h
    decide

theorem behind_host (u : Url) :
    Behind (u.port_text ++ (u.path ++ u.query_text ++ u.fragment_text)) := by
  unfold Url.port_text
  cases hport : u.port with
  | none =>
    refine ⟨fun c l h => ?_, fun c l h => ?_⟩
    · have hmem := tail_head u c l h
      revert hmem
      simp only [separators, List.mem_cons]
      tauto
    · exact absurd (tail_head u ':' (c :: l) h) (by decide)
  | some p =>
    obtain ⟨hne, hdigits, -⟩ := port_digits hport
    refine ⟨fun c l h => ?_, fun c l h => ?_⟩
    · obtain ⟨rfl, -⟩ := List.cons.inj h
      decide
    · obtain ⟨d, p, rfl⟩ := List.exists_cons_of_ne_nil hne
      obtain ⟨rfl, -⟩ := List.cons.inj (List.cons.inj h).2
      rintro rfl
      exact absurd (hdigits '/' List.mem_cons_self) (by decide)

/-- A name and what is behind it are not a protocol with "://". -/
theorem not_protocol {letters more rest : text} (hletters : ∀ c ∈ letters, c ∉ separators)
    (ht : ∀ c ∈ t, c ∉ separators) (hmore : Behind more) :
    t ++ more ≠ letters ++ ':' :: '/' :: rest := by
  intro heq
  have hall : ∀ {l : text}, (∀ c ∈ l, c ∉ separators) → ∀ c ∈ l, decide (c ∉ separators) = true :=
    fun h c hc => decide_eq_true (h c hc)
  have hbehind : more.dropWhile (fun c => decide (c ∉ separators)) = more := by
    cases more with
    | nil => rfl
    | cons c l =>
      have hc := hmore.head c l rfl
      rw [List.dropWhile_cons_of_neg (by simpa using hc)]
  have hdrop := congrArg (List.dropWhile fun c => decide (c ∉ separators)) heq
  rw [List.dropWhile_append_of_pos (hall ht), List.dropWhile_append_of_pos (hall hletters), hbehind,
    List.dropWhile_cons_of_neg (by decide)] at hdrop
  exact hmore.port '/' rest hdrop rfl

theorem offset_of_render (u : Url) : offset_of u.render = u.start.length := by
  unfold Url.render Url.start
  cases hscheme : u.scheme with
  | some s =>
    cases s with
    | http =>
      have h8 : ∀ x, (http ++ x).take 8 ≠ https := by
        intro x
        cases x <;> simp [http, https]
      have h7 : ∀ x, (http ++ x).take 7 = http := fun x => List.take_left' rfl
      unfold offset_of
      dsimp only
      rw [if_neg (h8 _), h7]
      rfl
    | https =>
      have h8 : ∀ x, (https ++ x).take 8 = https := fun x => List.take_left' rfl
      unfold offset_of
      dsimp only
      rw [if_pos (h8 _)]
      rfl
  | none =>
    have hno : ∀ letters rest, (∀ c ∈ letters, c ∉ separators) → letters.head? = some 'h' →
        u.host_text ++ u.port_text ++ (u.path ++ u.query_text ++ u.fragment_text) ≠
          letters ++ ':' :: '/' :: rest := by
      intro letters rest hletters hhead
      have hvalid := u.host_valid
      have hmore := behind_host u
      unfold Url.host_text
      rw [List.append_assoc]
      cases hhost : u.host with
      | name t =>
        rw [hhost] at hvalid
        exact not_protocol hletters hvalid.2 hmore
      | v6 t =>
        -- it begins with a bracket
        intro heq
        cases letters with
        | nil => cases hhead
        | cons c letters =>
          obtain ⟨rfl, -⟩ := List.cons.inj heq
          exact absurd (Option.some.inj hhead) (by decide)
    generalize u.host_text ++ u.port_text ++ (u.path ++ u.query_text ++ u.fragment_text) = l at hno
    have h8 : ([] ++ l).take 8 ≠ https := by
      intro h
      apply hno ['h', 't', 't', 'p', 's'] ('/' :: l.drop 8) (by simp [separators]) rfl
      have hsplit := List.take_append_drop 8 l
      rw [List.nil_append] at h
      rw [h] at hsplit
      exact hsplit.symm
    have h7 : ([] ++ l).take 7 ≠ http := by
      intro h
      apply hno ['h', 't', 't', 'p'] ('/' :: l.drop 7) (by simp [separators]) rfl
      have hsplit := List.take_append_drop 7 l
      rw [List.nil_append] at h
      rw [h] at hsplit
      exact hsplit.symm
    unfold offset_of
    dsimp only
    rw [if_neg h8, if_neg (fun h => h7 h.2)]
    rfl

/-! ## The host and the port -/

/-- What the code takes for a part of the domain: the query and the fragment, up to a "/", when there
is no path. -/
def Url.extra (u : Url) : text :=
  (u.path ++ u.query_text ++ u.fragment_text).takeWhile (· ≠ '/')

theorem parts_of_render (u : Url) :
    parts_of u.render =
      let domain := u.host_text ++ u.port_text ++ u.extra
      { domain := domain.takeWhile (· ≠ ':')
        url_port := port_for (u.start.take (u.start.length - 3)) domain
        path := requested (((u.path ++ u.query_text ++ u.fragment_text).dropWhile
          (· ≠ '/')).takeWhile (· ≠ '#')) } := by
  have hne : u.host_text ++ u.port_text ≠ [] := by
    intro h
    exact host_text_ne_nil u (List.append_eq_nil_iff.mp h).1
  exact parts_of_eq hne (authority_slash u) (offset_of_render u)

theorem extra_path (h : u.path ≠ []) : u.extra = [] := by
  obtain ⟨rest, hpath⟩ := u.path_valid.resolve_left h
  unfold Url.extra
  rw [hpath]
  rfl

/-- Without a path, the extra text begins with the mark of the query or the fragment. -/
theorem extra_head (h : u.path = []) :
    u.extra = [] ∧ u.query = none ∧ u.fragment = none ∨
      (∃ c l, u.extra = c :: l ∧ c ∈ ['?', '#']) ∧ ¬ (u.query = none ∧ u.fragment = none) := by
  unfold Url.extra Url.query_text Url.fragment_text
  rw [h]
  cases hq : u.query with
  | some q =>
    refine Or.inr ⟨⟨'?', _, List.takeWhile_cons_of_pos (by decide), by decide⟩, ?_⟩
    simp
  | none =>
    cases hf : u.fragment with
    | some f =>
      refine Or.inr ⟨⟨'#', _, List.takeWhile_cons_of_pos (by decide), by decide⟩, ?_⟩
      simp
    | none => exact Or.inl ⟨rfl, rfl, rfl⟩

/-- Neither "/" nor ":" is a name's, and the domain is the name when a port or a path follows. -/
theorem domain_iff (hhost : u.host = .name t) :
    (u.host_text ++ u.port_text ++ u.extra).takeWhile (· ≠ ':') = t ↔
      u.port ≠ none ∨ u.path ≠ [] ∨ u.query = none ∧ u.fragment = none := by
  have hvalid := u.host_valid
  rw [hhost] at hvalid
  have htext : u.host_text = t := by
    unfold Url.host_text
    rw [hhost]
  have hcolon : ':' ∉ t := fun hmem => hvalid.2 ':' hmem (by decide)
  have hall : ∀ c ∈ t, decide (c ≠ ':') = true := by
    intro c hc
    apply decide_eq_true
    rintro rfl
    exact hcolon hc
  rw [htext, List.append_assoc, List.takeWhile_append_of_pos hall, List.append_right_eq_self]
  unfold Url.port_text
  cases hport : u.port with
  | some p => simp [marked]
  | none =>
    rw [marked, List.nil_append]
    by_cases hpath : u.path = []
    · rcases extra_head hpath with ⟨hextra, hnone⟩ | ⟨⟨c, l, hextra, hc⟩, hsome⟩
      · rw [hextra]
        simp [hnone]
      · rw [hextra]
        have hne : c ≠ ':' := by
          rintro rfl
          exact absurd hc (by decide)
        simp [hne, hpath, hsome]
    · rw [extra_path hpath]
      simp [hpath]

/-- A number is read up to the first character that is no digit. -/
theorem strtol_digits {p rest : text} (hne : p ≠ []) (hdigits : ∀ c ∈ p, c.isDigit)
    (hrest : ∀ c l, rest = c :: l → c.isDigit = false) : strtol (p ++ rest) = some (decimal p) := by
  obtain ⟨d, p', rfl⟩ := List.exists_cons_of_ne_nil hne
  have hd : d.isDigit = true := hdigits d List.mem_cons_self
  have hspace : isspace d = false := by
    simp only [Char.isDigit, Bool.and_eq_true, decide_eq_true_eq, ge_iff_le] at hd
    have hlow : 48 ≤ d.toNat := hd.1
    have hne : d ≠ ' ' := by
      rintro rfl
      exact absurd hlow (by decide)
    unfold isspace
    rw [decide_eq_false_iff_not]
    rintro (heq | ⟨-, hle⟩)
    · exact hne heq
    · omega
  have hminus : d ≠ '-' := by
    rintro rfl
    exact absurd hd (by decide)
  have hplus : d ≠ '+' := by
    rintro rfl
    exact absurd hd (by decide)
  have htake : (d :: p' ++ rest).takeWhile Char.isDigit = d :: p' := by
    rw [List.takeWhile_append_of_pos hdigits]
    cases rest with
    | nil => exact List.append_nil _
    | cons c l => rw [List.takeWhile_cons_of_neg (by simp [hrest c l rfl]), List.append_nil]
  have hdigits' : signed.digits (d :: p' ++ rest) = some (decimal (d :: p') : Int) := by
    unfold signed.digits
    rw [htake, if_neg (List.cons_ne_nil d p')]
  unfold strtol
  rw [List.cons_append, List.dropWhile_cons_of_neg (by simp [hspace])]
  unfold signed
  split
  next heq => exact absurd (List.cons.inj heq).1 hminus
  next heq => exact absurd (List.cons.inj heq).1 hplus
  next => exact hdigits'

theorem stoi_digits {p rest : text} (hne : p ≠ []) (hdigits : ∀ c ∈ p, c.isDigit)
    (hlt : decimal p < 65536) (hrest : ∀ c l, rest = c :: l → c.isDigit = false) :
    stoi (p ++ rest) = .ok (decimal p) := by
  have hrange : INT_MIN ≤ (decimal p : Int) ∧ (decimal p : Int) ≤ INT_MAX := by
    unfold INT_MIN INT_MAX
    omega
  unfold stoi
  rw [strtol_digits hne hdigits hrest]
  exact if_pos hrange

theorem port_for_start (u : Url) (domain : text) :
    port_for (u.start.take (u.start.length - 3)) domain =
      match u.scheme with
      | some .http => ['8', '0']
      | some .https => ['4', '4', '3']
      | none => if ':' ∈ domain then (domain.dropWhile (· ≠ ':')).tail else ['8', '0'] := by
  unfold Url.start
  cases hscheme : u.scheme with
  | none => rfl
  | some s => cases s <;> rfl

/-- The port that is connected to. -/
def Connects (url_port : text) (port : Nat) : Prop :=
  ∃ n, stoi url_port = .ok n ∧ (UInt16.ofNat (n % 65536).toNat).toNat = port

theorem connects_of_stoi {url_port : text} {n : Nat} (h : stoi url_port = .ok n) (hlt : n < 65536)
    (port : Nat) : Connects url_port port ↔ n = port := by
  have hport : (UInt16.ofNat ((n : Int) % 65536).toNat).toNat = n := by
    rw [UInt16.toNat_ofNat']
    omega
  constructor
  · rintro ⟨m, hm, rfl⟩
    obtain rfl := Except.ok.inj (h.symm.trans hm)
    exact hport.symm
  · rintro rfl
    exact ⟨n, h, hport⟩

theorem port_iff (hhost : u.host = .name t)
    (hdomain : u.port ≠ none ∨ u.path ≠ [] ∨ u.query = none ∧ u.fragment = none) :
    Connects (port_for (u.start.take (u.start.length - 3)) (u.host_text ++ u.port_text ++ u.extra))
        u.port_number ↔
      u.scheme = none ∨ u.port = none ∨ u.port_number = u.default_port := by
  have hvalid := u.host_valid
  rw [hhost] at hvalid
  have htext : u.host_text = t := by
    unfold Url.host_text
    rw [hhost]
  have h80 : stoi ['8', '0'] = .ok ((80 : Nat) : Int) := by decide
  have h443 : stoi ['4', '4', '3'] = .ok ((443 : Nat) : Int) := by decide
  have hmissing : u.port = none → u.port_number = u.default_port := by
    intro hport
    unfold Url.port_number
    rw [hport]
  have hdefault : ∀ n, n = u.default_port →
      (n = u.port_number ↔ u.port = none ∨ u.port_number = u.default_port) := by
    rintro n rfl
    constructor
    · intro h
      exact Or.inr h.symm
    · rintro (h | h)
      · exact (hmissing h).symm
      · exact h.symm
  rw [port_for_start]
  cases hscheme : u.scheme with
  | some s =>
    cases s with
    | http =>
      have h : 80 = u.default_port := by
        unfold Url.default_port
        rw [hscheme]
        rfl
      dsimp only
      rw [connects_of_stoi h80 (by decide), hdefault 80 h]
      simp
    | https =>
      have h : 443 = u.default_port := by
        unfold Url.default_port
        rw [hscheme]
        rfl
      dsimp only
      rw [connects_of_stoi h443 (by decide), hdefault 443 h]
      simp
  | none =>
    have hcolon : ':' ∉ t := fun hmem => hvalid.2 ':' hmem (by decide)
    refine iff_of_true ?_ (Or.inl rfl)
    dsimp only
    rw [htext]
    cases hport : u.port with
    | none =>
      have hextra : u.extra = [] := by
        rcases hdomain with h | h | h
        · exact absurd hport h
        · exact extra_path h
        · by_cases hpath : u.path = []
          · rcases extra_head hpath with ⟨hextra, -⟩ | ⟨-, hsome⟩
            · exact hextra
            · exact absurd h hsome
          · exact extra_path hpath
      have hdefault80 : 80 = u.port_number := by
        rw [hmissing hport]
        unfold Url.default_port
        rw [hscheme]
        rfl
      unfold Url.port_text
      rw [hport, marked, List.append_nil, hextra, List.append_nil, if_neg hcolon,
        connects_of_stoi h80 (by decide)]
      exact hdefault80
    | some p =>
      obtain ⟨hne, hdigits, hlt⟩ := port_digits hport
      have hextra : ∀ c l, u.extra = c :: l → c.isDigit = false := by
        intro c l h
        by_cases hpath : u.path = []
        · rcases extra_head hpath with ⟨hnil, -⟩ | ⟨⟨d, l', hcons, hd⟩, -⟩
          · rw [hnil] at h
            cases h
          · obtain ⟨rfl, -⟩ := List.cons.inj (hcons.symm.trans h)
            revert hd
            simp only [List.mem_cons, List.not_mem_nil, or_false]
            rintro (rfl | rfl) <;> decide
        · rw [extra_path hpath] at h
          cases h
      have hnumber : decimal p = u.port_number := by
        unfold Url.port_number
        rw [hport]
      obtain ⟨-, hbehind⟩ := takeWhile_marked hcolon (some p) u.extra (fun h => nomatch h)
      have hmem : ':' ∈ t ++ (marked ':' (some p) ++ u.extra) := by
        simp [marked]
      unfold Url.port_text
      rw [hport, List.append_assoc, if_pos hmem, hbehind]
      show Connects (p ++ u.extra) u.port_number
      rw [connects_of_stoi (stoi_digits hne hdigits hlt hextra) hlt]
      exact hnumber

/-! ## The target -/

/-- Behind a path the fragment is cut off. -/
theorem cut_path (h : u.path ≠ []) :
    ((u.path ++ u.query_text ++ u.fragment_text).dropWhile (· ≠ '/')).takeWhile (· ≠ '#') =
      u.path ++ u.query_text := by
  obtain ⟨rest, hpath⟩ := u.path_valid.resolve_left h
  have hno : '#' ∉ u.path ++ u.query_text := by
    intro hmem
    rcases List.mem_append.mp hmem with hp | hq
    · exact u.path_chars '#' hp (by decide)
    · unfold Url.query_text at hq
      cases hquery : u.query with
      | none =>
        rw [hquery] at hq
        exact absurd hq List.not_mem_nil
      | some q =>
        rw [hquery] at hq
        exact u.query_chars q hquery (by simpa [marked] using hq)
  have hdrop : (u.path ++ u.query_text ++ u.fragment_text).dropWhile (· ≠ '/') =
      u.path ++ u.query_text ++ u.fragment_text := by
    rw [hpath]
    exact List.dropWhile_cons_of_neg (by decide)
  obtain ⟨hbefore, -⟩ := takeWhile_marked hno u.fragment [] fun _ => rfl
  rw [List.append_nil] at hbefore
  rw [hdrop]
  exact hbefore

theorem path_iff (h : u.path ≠ []) :
    requested (((u.path ++ u.query_text ++ u.fragment_text).dropWhile (· ≠ '/')).takeWhile
      (· ≠ '#')) = u.target ↔ u.query ≠ some [] := by
  have hno : '?' ∉ u.path := fun hmem => u.path_chars '?' hmem (by decide)
  rw [cut_path h]
  unfold Url.query_text Url.target
  rw [requested_marked hno, if_neg h]
  unfold Url.query_text
  rw [List.append_cancel_left_eq]
  cases u.query with
  | none => simp
  | some q => cases q <;> simp [marked]

/-- Without a path, the target is "/" and the query. -/
theorem no_path_iff (h : u.path = []) :
    requested (((u.path ++ u.query_text ++ u.fragment_text).dropWhile (· ≠ '/')).takeWhile
      (· ≠ '#')) = u.target ↔ u.Lucky := by
  unfold Url.Lucky Url.target
  rw [h, List.nil_append, if_pos rfl]
  generalize hcut : ((u.query_text ++ u.fragment_text).dropWhile (· ≠ '/')).takeWhile (· ≠ '#') = cut
  have hhead : cut = [] ∨ ∃ rest, cut = '/' :: rest := by
    cases hdrop : (u.query_text ++ u.fragment_text).dropWhile (· ≠ '/') with
    | nil =>
      rw [hdrop] at hcut
      exact Or.inl hcut.symm
    | cons c rest =>
      have hne : (u.query_text ++ u.fragment_text).dropWhile (fun d => decide (d ≠ '/')) ≠ [] := by
        rw [hdrop]
        exact List.cons_ne_nil c rest
      have hc := List.head_dropWhile_not (fun d => decide (d ≠ '/')) hne
      simp only [hdrop, List.head_cons, decide_eq_false_iff_not, not_not] at hc
      rw [hdrop, hc] at hcut
      exact Or.inr ⟨_, hcut.symm⟩
  obtain ⟨a, part, ha, hpart⟩ := exists_marked '?' cut
  rw [hpart] at hhead ⊢
  rw [requested_marked ha]
  unfold Url.query_text
  cases a with
  | nil =>
    -- then it is empty, since it does not begin with "?"
    have hnone : part = none := by
      cases part with
      | none => rfl
      | some b => exact absurd hhead (by simp [marked])
    rw [hnone]
    cases u.query with
    | none => simp [marked]
    | some q => simp [marked]
  | cons c a =>
    have hc : c = '/' := by
      rcases hhead with h | ⟨rest, h⟩
      · cases h
      · exact (List.cons.inj h).1
    have ha' : '?' ∉ a := fun hmem => ha (List.mem_cons_of_mem c hmem)
    rw [hc]
    cases hquery : u.query with
    | none =>
      cases part with
      | none =>
        have hne : a ≠ ['?'] := by
          rintro rfl
          exact ha' List.mem_cons_self
        simp [marked, hne]
      | some b => cases b <;> cases a <;> simp [marked]
    | some q =>
      cases a with
      | nil =>
        cases part with
        | none => simp [marked]
        | some b =>
          cases b with
          | nil =>
            simp only [marked, if_true, List.append_nil]
            constructor
            · intro h
              exact absurd (List.cons.inj h).2 (by simp)
            · rintro ⟨hne, h⟩
              exact absurd (by simpa using h.symm) hne
          | cons d b =>
            simp only [marked, Option.some.injEq, List.cons_ne_nil, if_false]
            constructor
            · intro h
              have hq : q = d :: b := by simpa using h.symm
              exact ⟨by rw [hq]; exact List.cons_ne_nil d b, by rw [hq]; rfl⟩
            · rintro ⟨-, h⟩
              exact h
      | cons d a =>
        have hd : d ≠ '?' := by
          rintro rfl
          exact ha' List.mem_cons_self
        simp [marked, hd]

/-! ## Each URL -/

theorem domain_ne_nil (u : Url) : (parts_of u.render).domain ≠ [] := by
  have hvalid := u.host_valid
  rw [parts_of_render]
  dsimp only
  unfold Url.host_text
  cases hhost : u.host with
  | name t =>
    rw [hhost] at hvalid
    obtain ⟨c, l, rfl⟩ := List.exists_cons_of_ne_nil hvalid.1
    have hc : c ≠ ':' := by
      rintro rfl
      exact hvalid.2 ':' List.mem_cons_self (by decide)
    simp [hc]
  | v6 t => simp

/-- The calls of `http_get` are for one request, to one port, at the addresses. -/
theorem get_from_calls (env : environment) (request : text) (port : UInt16) (buf : text)
    (ips : List text) :
    ∀ c ∈ (get_from env request port buf ips).2.2, ∃ ip ∈ ips, c = .http_get request ip port := by
  induction ips generalizing buf with
  | nil =>
    intro c hc
    cases hc
  | cons ip ips ih =>
    intro c hc
    unfold get_from at hc
    dsimp only at hc
    split at hc
    · rcases List.mem_cons.mp hc with rfl | hrest
      · exact ⟨ip, List.mem_cons_self, rfl⟩
      · obtain ⟨ip', hip', rfl⟩ := ih _ c hrest
        exact ⟨ip', List.mem_cons_of_mem ip hip', rfl⟩
    · obtain rfl := List.mem_singleton.mp hc
      exact ⟨ip, List.mem_cons_self, rfl⟩

theorem addresses_calls (env : environment) (domain : text) :
    ∀ c ∈ (addresses env domain).2, c = .dns_lookup domain := by
  intro c hc
  unfold addresses at hc
  split at hc
  · split at hc
    · cases hc
    · split at hc
      · cases hc
      · exact List.mem_singleton.mp hc
  · cases hc

/-- A resolver that knows all names, and a server that answers. -/
def answering : environment where
  is_ipv4_address _ := false
  is_ipv6_address _ := false
  dns_lookup _ := [[]]
  http_get _ _ _ buf := (1, buf)

/-- The calls are right, just when the parts are. -/
theorem followed_iff (u : Url) :
    u.Followed ↔ (parts_of u.render).domain = u.host_name ∧
      Connects (parts_of u.render).url_port u.port_number ∧
      (parts_of u.render).path = u.target := by
  constructor
  · intro h
    obtain ⟨ret, buf', calls, hdownload, hcalls⟩ := h answering []
    have hlen : (parts_of u.render).domain.length > 0 :=
      List.length_pos_iff.mpr (domain_ne_nil u)
    have hlookup : addresses answering (parts_of u.render).domain =
        ([[]], [.dns_lookup (parts_of u.render).domain]) := if_pos hlen
    unfold download at hdownload
    dsimp only at hdownload
    rw [hlookup] at hdownload
    cases hport : stoi (parts_of u.render).url_port with
    | error e =>
      rw [hport] at hdownload
      cases hdownload
    | ok n =>
      rw [hport] at hdownload
      have hall : calls = [.dns_lookup (parts_of u.render).domain,
          .http_get (request_of (parts_of u.render).path (parts_of u.render).domain) []
            (UInt16.ofNat (n % 65536).toNat)] :=
        (congrArg (fun r => r.2.2) (Except.ok.inj hdownload)).symm
      have hdomain : (parts_of u.render).domain = u.host_name :=
        hcalls (.dns_lookup (parts_of u.render).domain) (by simp [hall])
      obtain ⟨hrequest, -, hnumber⟩ :=
        hcalls (.http_get (request_of (parts_of u.render).path (parts_of u.render).domain) []
          (UInt16.ofNat (n % 65536).toNat)) (by simp [hall])
      refine ⟨hdomain, ⟨n, hport, hnumber⟩, ?_⟩
      unfold request_of at hrequest
      rw [hdomain] at hrequest
      exact List.append_cancel_left (List.append_cancel_right (List.append_cancel_right hrequest))
  · rintro ⟨hdomain, ⟨n, hport, hnumber⟩, hpath⟩ env buf
    unfold download
    dsimp only
    rw [hdomain, hpath, hport]
    have hlookups : ∀ c ∈ (addresses env u.host_name).2, u.Means env c := by
      intro c hc
      rw [addresses_calls env u.host_name c hc]
      rfl
    by_cases hnone : (addresses env u.host_name).1 = []
    · rw [if_neg (not_not_intro hnone)]
      exact ⟨_, _, _, rfl, hlookups⟩
    · rw [if_pos hnone]
      refine ⟨_, _, _, rfl, fun c hc => ?_⟩
      rcases List.mem_append.mp hc with hlookup | hget
      · exact hlookups c hlookup
      · obtain ⟨ip, hip, rfl⟩ := get_from_calls env _ _ _ _ c hget
        exact ⟨rfl, hip, hnumber⟩

/-- A URL is followed, just when its host is a name, a port that it gives is not overruled by its
protocol, and a query or a fragment does not stand where the code looks for something else. -/
theorem download_follows_iff (u : Url) : u.Followed ↔ u.Sound := by
  rw [followed_iff, parts_of_render]
  dsimp only
  cases hhost : u.host with
  | v6 t =>
    have hvalid := u.host_valid
    rw [hhost] at hvalid
    have hname : u.host_name = t := by
      unfold Url.host_name
      rw [hhost]
    constructor
    · rintro ⟨hdomain, -⟩
      rw [hname] at hdomain
      have hcolon := hvalid.1
      rw [← hdomain] at hcolon
      exact absurd (List.mem_takeWhile_imp hcolon) (by simp)
    · rintro ⟨⟨t', hname'⟩, -⟩
      rw [hhost] at hname'
      cases hname'
  | name t =>
    have hname : u.host_name = t := by
      unfold Url.host_name
      rw [hhost]
    rw [hname, domain_iff hhost]
    by_cases hpath : u.path = []
    · rw [no_path_iff hpath]
      constructor
      · rintro ⟨hdomain, hport, hlucky⟩
        refine ⟨⟨t, hhost⟩, (port_iff hhost hdomain).mp hport, fun h => absurd hpath h, fun _ => ?_⟩
        rcases hdomain with h | h | h
        · exact Or.inr ⟨h, hlucky⟩
        · exact absurd hpath h
        · exact Or.inl h
      · rintro ⟨-, hport, -, hno⟩
        have hdomain : u.port ≠ none ∨ u.path ≠ [] ∨ u.query = none ∧ u.fragment = none := by
          rcases hno hpath with h | h
          · exact Or.inr (Or.inr h)
          · exact Or.inl h.1
        refine ⟨hdomain, (port_iff hhost hdomain).mpr hport, ?_⟩
        rcases hno hpath with ⟨hquery, hfragment⟩ | h
        · unfold Url.Lucky Url.query_text Url.fragment_text
          rw [hquery, hfragment]
          simp [marked]
        · exact h.2
    · rw [path_iff hpath]
      have hdomain : u.port ≠ none ∨ u.path ≠ [] ∨ u.query = none ∧ u.fragment = none :=
        Or.inr (Or.inl hpath)
      rw [port_iff hhost hdomain]
      constructor
      · rintro ⟨-, hport, hquery⟩
        exact ⟨⟨t, hhost⟩, hport, fun _ => hquery, fun h => absurd h hpath⟩
      · rintro ⟨-, hport, hquery, -⟩
        exact ⟨hdomain, hport, hquery hpath⟩

/-- "http://a:8080/", which is asked for at port 80. -/
theorem download_not_followed :
    ∃ u : Url, u.render = "http://a:8080/".toList ∧ u.port_number = 8080 ∧ ¬ u.Followed := by
  let u : Url := {
    scheme := some .http, host := .name ['a'], port := some ['8', '0', '8', '0'], path := ['/']
    query := none, fragment := none
    host_valid := ⟨by decide, by simp [separators]⟩
    port_valid := by
      rintro p hp
      obtain rfl := Option.some.inj hp
      decide
    path_valid := Or.inr ⟨[], rfl⟩
    path_chars := by simp
    query_chars := fun q hq => nomatch hq }
  refine ⟨u, by decide, by decide, ?_⟩
  intro h
  obtain ⟨ret, buf', calls, hdownload, hcalls⟩ := h answering []
  have hall : calls = [.dns_lookup ['a'], .http_get (request_of ['/'] ['a']) [] 80] := by
    have hgot : (download answering u.render []).map (fun r => r.2.2) =
        .ok [.dns_lookup ['a'], .http_get (request_of ['/'] ['a']) [] 80] := rfl
    rw [hdownload] at hgot
    exact Except.ok.inj hgot
  obtain ⟨-, -, hnumber⟩ :=
    hcalls (.http_get (request_of ['/'] ['a']) [] 80) (by simp [hall])
  exact absurd hnumber (by decide)

end socle.inet
