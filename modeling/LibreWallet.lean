import LibreWallet.Backup.RoundTrip
import LibreWallet.Bolt11.HintSelection
import LibreWallet.Controller.Freshness
import LibreWallet.Drive.Foreign
import LibreWallet.Drive.Register
import LibreWallet.Drive.Uploads
import LibreWallet.Embed.Acks
import LibreWallet.Embed.Deferred
import LibreWallet.Embed.Handoffs
import LibreWallet.Embed.Outage
import LibreWallet.Embed.Override
import LibreWallet.Embed.Overwrite
import LibreWallet.Embed.OwnClaim
import LibreWallet.Embed.Reconnect
import LibreWallet.Embed.Released
import LibreWallet.Embed.Retake
import LibreWallet.Esplora.Reorg
import LibreWallet.Extension.Consent
import LibreWallet.Lifecycle.Custody
import LibreWallet.Lifecycle.Restart
import LibreWallet.Lsps2.Jit
import LibreWallet.Net.Addresses
import LibreWallet.Net.Announcer
import LibreWallet.Net.BridgeServer
import LibreWallet.Net.Peers
import LibreWallet.Nwc.Atomicity
import LibreWallet.Nwc.Cap
import LibreWallet.Nwc.Coverage
import LibreWallet.Payments.PaymentLog
import LibreWallet.Payments.Splits
import LibreWallet.Persist.Cache
import LibreWallet.Persist.Clock
import LibreWallet.Persist.Monitors
import LibreWallet.Persist.Sweeps
import LibreWallet.PushGateway.Listener
import LibreWallet.PushGateway.Subscriptions
import LibreWallet.Pwa.Reconciling
import LibreWallet.Roaming.Chain
import LibreWallet.Roaming.Racing
import LibreWallet.Spending.Amounts
import LibreWallet.Spending.Windows
import LibreWallet.Vss.Codec
import LibreWallet.Vss.DeviceLease
import LibreWallet.Vss.Garbage
import LibreWallet.Vss.Mirror
import LibreWallet.Vss.Rehydrate
import LibreWallet.Vss.Shutdown
import LibreWallet.Webln.Refunds
