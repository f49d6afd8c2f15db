import HttpHead.Text.Case

/-! Names of header fields. Names are compared up to the case of their ASCII
letters, and the well-known ones have a value of their own. -/
namespace HttpHead

/-- The well-known field names, in the order by which names are compared. -/
inductive KnownName where
  | accept
  | acceptCharset
  | acceptEncoding
  | acceptLanguage
  | accessControlRequestHeaders
  | accessControlRequestMethod
  | authorization
  | cacheControl
  | connection
  | contentEncoding
  | contentLength
  | contentType
  | cookie
  | dnt
  | earlyData
  | expect
  | forwarded
  | fromField
  | host
  | ifMatch
  | ifModifiedSince
  | ifNoneMatch
  | ifRange
  | ifUnmodifiedSince
  | keepAlive
  | maxForwards
  | origin
  | pragma
  | proxyAuthorization
  | proxyConnection
  | range
  | referer
  | secFetchDest
  | secFetchMode
  | secFetchSite
  | secFetchUser
  | secWebSocketKey
  | secWebSocketProtocol
  | secWebSocketVersion
  | te
  | trailer
  | transferEncoding
  | upgrade
  | upgradeInsecureRequests
  | userAgent
  | via
  | xForwardedFor
  | xRequestedWith
  deriving DecidableEq, Ord

namespace KnownName

def text : KnownName → String
  | accept => "Accept"
  | acceptCharset => "Accept-Charset"
  | acceptEncoding => "Accept-Encoding"
  | acceptLanguage => "Accept-Language"
  | accessControlRequestHeaders => "Access-Control-Request-Headers"
  | accessControlRequestMethod => "Access-Control-Request-Method"
  | authorization => "Authorization"
  | cacheControl => "Cache-Control"
  | connection => "Connection"
  | contentEncoding => "Content-Encoding"
  | contentLength => "Content-Length"
  | contentType => "Content-Type"
  | cookie => "Cookie"
  | dnt => "DNT"
  | earlyData => "Early-Data"
  | expect => "Expect"
  | forwarded => "Forwarded"
  | fromField => "From"
  | host => "Host"
  | ifMatch => "If-Match"
  | ifModifiedSince => "If-Modified-Since"
  | ifNoneMatch => "If-None-Match"
  | ifRange => "If-Range"
  | ifUnmodifiedSince => "If-Unmodified-Since"
  | keepAlive => "Keep-Alive"
  | maxForwards => "Max-Forwards"
  | origin => "Origin"
  | pragma => "Pragma"
  | proxyAuthorization => "Proxy-Authorization"
  | proxyConnection => "Proxy-Connection"
  | range => "Range"
  | referer => "Referer"
  | secFetchDest => "Sec-Fetch-Dest"
  | secFetchMode => "Sec-Fetch-Mode"
  | secFetchSite => "Sec-Fetch-Site"
  | secFetchUser => "Sec-Fetch-User"
  | secWebSocketKey => "Sec-WebSocket-Key"
  | secWebSocketProtocol => "Sec-WebSocket-Protocol"
  | secWebSocketVersion => "Sec-WebSocket-Version"
  | te => "TE"
  | trailer => "Trailer"
  | transferEncoding => "Transfer-Encoding"
  | upgrade => "Upgrade"
  | upgradeInsecureRequests => "Upgrade-Insecure-Requests"
  | userAgent => "User-Agent"
  | via => "Via"
  | xForwardedFor => "X-Forwarded-For"
  | xRequestedWith => "X-Requested-With"

/-- The names by which the well-known ones are found, in small letters. -/
def table : List (String × KnownName) :=
  [("accept", accept), ("accept-charset", acceptCharset), ("accept-encoding", acceptEncoding),
    ("accept-language", acceptLanguage),
    ("access-control-request-headers", accessControlRequestHeaders),
    ("access-control-request-method", accessControlRequestMethod), ("authorization", authorization),
    ("cache-control", cacheControl), ("connection", connection),
    ("content-encoding", contentEncoding), ("content-length", contentLength),
    ("content-type", contentType), ("cookie", cookie), ("dnt", dnt), ("early-data", earlyData),
    ("expect", expect), ("forwarded", forwarded), ("from", fromField), ("host", host),
    ("if-match", ifMatch), ("if-modified-since", ifModifiedSince), ("if-none-match", ifNoneMatch),
    ("if-range", ifRange), ("if-unmodified-since", ifUnmodifiedSince), ("keep-alive", keepAlive),
    ("max-forwards", maxForwards), ("origin", origin), ("pragma", pragma),
    ("proxy-authorization", proxyAuthorization), ("proxy-connection", proxyConnection),
    ("range", range), ("referer", referer), ("sec-fetch-dest", secFetchDest),
    ("sec-fetch-mode", secFetchMode), ("sec-fetch-site", secFetchSite),
    ("sec-fetch-user", secFetchUser), ("sec-websocket-key", secWebSocketKey),
    ("sec-websocket-protocol", secWebSocketProtocol),
    ("sec-websocket-version", secWebSocketVersion), ("te", te), ("trailer", trailer),
    ("transfer-encoding", transferEncoding), ("upgrade", upgrade),
    ("upgrade-insecure-requests", upgradeInsecureRequests), ("user-agent", userAgent), ("via", via),
    ("x-forwarded-for", xForwardedFor), ("x-requested-with", xRequestedWith)]

def ofText? (s : String) : Option KnownName :=
  (table.find? (Text.sameUpToCase ·.1 s)).map (·.2)

end KnownName

/-- A field name without its case. Unknown names come before the well-known ones,
ordered by their text in small letters. -/
inductive FieldName where
  | other (text : String)
  | known (name : KnownName)
  deriving DecidableEq, Ord

namespace FieldName

def ofText (s : String) : FieldName :=
  match KnownName.ofText? s with
  | some name => known name
  | none => other (Text.foldCase s)

/-- The field name of a text that is given away, so that an unknown one is folded in place. -/
def ofOwned (s : String) : FieldName :=
  match KnownName.ofText? s with
  | some name => known name
  | none => other (Text.foldOctets s)

def text : FieldName → String
  | other text => text
  | known name => name.text

def denotes (name : FieldName) (s : String) : Bool := Text.sameUpToCase name.text s

end FieldName

end HttpHead
